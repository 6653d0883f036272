import Mathlib
import PatternTree.Proofs.Numbering.Document

/-!
# Finishing a tree

To finish a tree its failures are counted and its captures are numbered, and while messages are traced
each of these is told. Three ways through the tree meet here: the failures are added up over all parts
and come out as the number of unknown tokens that a search finds (`length_filter_unknown`), the numbers
go through children only, and the messages follow the numbers (`pass_told`). The number of captures is
never counted. It is the difference of two words, and right even if the numbers started again at zero in
between (`finish_result`).
-/

namespace PatternTree

/-! ## Failures -/

/-- Words that stand for counts add up to the word for the sum. -/
theorem foldl_add_ofNat (counts : List Nat) (n : UInt32) :
    (counts.map UInt32.ofNat).foldl (· + ·) n = n + UInt32.ofNat counts.sum := by
  induction counts generalizing n with
  | nil => simp
  | cons k counts ih =>
    rw [List.map_cons, List.foldl_cons, ih, List.sum_cons, UInt32.ofNat_add, UInt32.add_assoc]

theorem Kind.isa_token_iff {kind : Kind} {k : TokenKind} :
    kind.isa (.token k) = true ↔ kind = .token k := by
  cases kind <;> simp [isa, isaWithin, parent]

namespace Element

theorem failures_of_isNode {e : Element} (h : e.isNode = true) :
    e.failures = (e.parts.map fun p => p.2.failures).foldl (· + ·) 0 :=
  (failures_eq e).trans (match_of_isNode _ _ e h)

/-- The failures are the unknown tokens, counted in words. -/
theorem failures_eq_countP (e : Element) :
    e.failures = UInt32.ofNat (e.tokens.countP fun t => t.kind = .unknown) := by
  induction e using induction_node with
  | token t =>
    rw [failures_eq, tokens_token]
    by_cases h : t.kind = .unknown <;> simp [h]
  | node e hnode ih =>
    have hparts : (e.parts.map fun p => p.2.failures) =
        (e.parts.map fun p => p.2.tokens.countP fun t => t.kind = .unknown).map UInt32.ofNat := by
      rw [List.map_map]
      exact List.map_congr_left ih
    rw [failures_of_isNode hnode, hparts, foldl_add_ofNat, UInt32.zero_add, tokens_of_isNode hnode,
      List.countP_flatMap]
    rfl

end Element

namespace Forest

theorem isa_anyToken_of_isa_token {F : Forest} {q : Position} {k : TokenKind}
    (h : F.isa (.token k) q = true) : F.isa .anyToken q = true := by
  cases hd : F.get? q with
  | none => simp [isa, hd] at h
  | some d =>
    rw [isa_of_get? hd, Kind.isa_token_iff] at h
    rw [isa_of_get? hd, h]
    rfl

/-- As many unknown tokens are found at or below an element as its list of tokens holds. -/
theorem length_filter_unknown {F : Forest} {r : Position} {e : Element} (he : F.get? r = some e) :
    ((F.preorder r).filter (F.isa (.token .unknown))).length =
      e.tokens.countP fun t => t.kind = .unknown := by
  have htokens : (F.preorder r).filter (F.isa (.token .unknown)) =
      (F.tokens r).filter (F.isa (.token .unknown)) := by
    rw [tokens_eq_filter, List.filter_filter]
    exact List.filter_congr fun q _ => Bool.eq_self_and.2 isa_anyToken_of_isa_token
  have hkinds : (F.tokens r).map (F.isa (.token .unknown)) =
      e.tokens.map fun t => decide (t.kind = .unknown) := by
    refine (map_tokens he fun d => d.any fun x => x.kind.isa (.token .unknown)).trans ?_
    refine List.map_congr_left fun t _ => ?_
    rw [Option.any_some, Bool.eq_iff_iff, Kind.isa_token_iff]
    simp [Element.kind]
  calc ((F.preorder r).filter (F.isa (.token .unknown))).length
      = ((F.tokens r).map (F.isa (.token .unknown))).countP id := by
        rw [htokens, ← List.countP_eq_length_filter, List.countP_map, Function.id_comp]
    _ = e.tokens.countP fun t => t.kind = .unknown := by
        rw [hkinds, List.countP_map, Function.id_comp]

end Forest

/-! ## Messages -/

/-- The name of the capture at a position; it is empty without a name. -/
def Forest.captureName (F : Forest) (r : Position) : String :=
  (((F.get? r).bind Element.captureForm?).map Form.captureName).getD ""

theorem Options.flatMap_log {α : Type} (options : Options) (f : α → Message) (as : List α) :
    (as.flatMap fun a => options.log (f a)) = if options.verbose then as.map f else [] := by
  cases h : options.verbose <;> simp [log, h, List.map_eq_flatMap]

namespace Numbering

/-- The messages of a pass tell of the numbers it gave, one after the other. -/
def Told (options : Options) (name : Position → String) (p : Pass) : Prop :=
  p.messages = p.assigned.flatMap fun a => options.log (.numbered a.2 (name a.1))

variable (options : Options)

theorem passParts_told {name : Position → String} (here : Position)
    (subs : List (Slot × Element × (Position → UInt32 → Pass)))
    (h : ∀ p ∈ subs, ∀ n, Told options name (p.2.2 (here.push p.1) n)) (n : UInt32) :
    Told options name (passParts here subs n) := by
  induction subs generalizing n with
  | nil => rfl
  | cons p rest ih =>
    obtain ⟨slot, e, below⟩ := p
    obtain ⟨hfirst, hrest⟩ := List.forall_mem_cons.1 h
    rw [Told, passParts, List.flatMap_append]
    exact congrArg₂ (· ++ ·) (hfirst n) (ih hrest _)

/-- One step down: a capture is told of before what is below it. -/
theorem pass_told {F : Forest} {e : Element} {r : Position} (h : F.get? r = some e) (n : UInt32) :
    Told options F.captureName (pass options e r n) := by
  induction e using Element.induction_parts generalizing r n with
  | h e ih =>
    rw [pass_eq, Element.filter_parts]
    have hbelow := passParts_told options r
      ((Element.childParts 0 e.children).map fun p => (p.1, p.2, pass options p.2)) (by
        intro p hp n
        obtain ⟨q, hq, rfl⟩ := List.mem_map.1 hp
        exact ih q (Element.mem_parts_of_mem_childParts hq) (Forest.get?_push_of_mem_childParts h hq) n)
    unfold passNode
    cases hform : e.captureForm? with
    | none => exact hbelow n
    | some form =>
      have hname : F.captureName r = form.captureName := by simp [Forest.captureName, h, hform]
      rw [Told, List.flatMap_cons, hname]
      exact congrArg₂ (· ++ ·) rfl (hbelow (n + 1))

end Numbering

namespace Session

theorem messages_pass {S : Session} {r : Position} (hr : r ∈ S.forest.positions) (n : UInt32) :
    (S.pass r n).messages =
      if S.options.verbose then
        (S.pass r n).assigned.map fun a => .numbered a.2 (S.forest.captureName a.1)
      else [] := by
  obtain ⟨e, he⟩ := Forest.mem_positions.1 hr
  rw [← Options.flatMap_log, pass, he]
  exact Numbering.pass_told S.options he n

theorem content_eq (S : Session) (r : Position) : S.content r = S.forest.content r := by
  unfold content Forest.content
  cases S.forest.get? r <;> rfl

/-- The failures of a node are as many as a search finds unknown tokens below it, counted in words. -/
theorem failures_eq_find {σ : Type} {S : Session} {r : Position} {e : Element}
    (he : S.forest.get? r = some e) (hnode : e.isNode = true) (s : σ) :
    ∃ unknown, (S.forest.find S.options r (.name "Token::Unknown") s).result = some unknown ∧
      S.failures r = UInt32.ofNat unknown.length := by
  have hname : Kind.ofName? "Token::Unknown" = some (.token .unknown) := by decide +kernel
  have hself : S.forest.isa (.token .unknown) r = false := by
    rw [Bool.eq_false_iff]
    intro h
    have htoken := Forest.isa_anyToken_of_isa_token h
    rw [Forest.isa_anyToken_eq_false he hnode] at htoken
    cases htoken
  refine ⟨_, Forest.find_kind_of_not_isa (Forest.mem_positions.2 ⟨e, he⟩) S.options
    (Selector.resolve?_name hname) hself s, ?_⟩
  rw [Forest.length_filter_unknown he, ← Element.failures_eq_countP]
  simp [failures, he]

/-- The texts that finishing a tree traces. -/
theorem map_text_finish (verbose : Bool) (name : Position → String) (content : String)
    (given : List (Position × UInt32)) (failures captures : Nat) :
    (if verbose then given.map (fun a => .numbered a.2 (name a.1)) ++
        [.finished content (UInt32.ofNat failures) (UInt32.ofNat captures)]
      else []).map Message.text =
    if verbose then
      given.map (fun a => "capture " ++ a.2.toNat.repr ++ " " ++ name a.1) ++
        ["finish: \"" ++ content ++ "\" failures " ++ (failures % 2 ^ 32).repr ++ " captures " ++
          (captures % 2 ^ 32).repr]
    else [] := by
  split
  · rw [List.map_append, List.map_map, List.map_singleton, Message.text_finished, UInt32.toNat_ofNat',
      UInt32.toNat_ofNat']
    refine congrArg (· ++ _) (List.map_congr_left fun a _ => ?_)
    exact Message.text_numbered a.2 (name a.1)
  · rfl

/-- **What finishing a tree gives and tells.** The failures are as many as a search for unknown tokens
finds, and the next number is the first one plus the captures reached from the node through children,
both modulo 2^32. Traced are, in document order, these captures with their new numbers and their names,
and at last the failures and the number of captures, modulo 2^32 also where the numbers have started
again at zero; the texts hold all of these, the numbers as decimals. Nothing is traced unless it is
asked for. Of each text the part before the first NUL is written, as a line. -/
theorem finish_result {σ : Type} (S : Session) (r : Position) {e : Element}
    (he : S.forest.get? r = some e) (hnode : e.isNode = true) (s : σ) :
    let captures := S.forest.captures r
    let first := S.options.firstCapture
    let after := (S.perform (.finish r)).2.2
    let messages := (S.perform (.finish r)).2.1
    (∀ c, c ∈ captures ↔ S.forest.isCapture c = true ∧ S.forest.Reaches r c) ∧
    captures.Pairwise S.forest.Precedes ∧
    ∃ unknown, (S.forest.find S.options r (.name "Token::Unknown") s).result = some unknown ∧
      (S.perform (.finish r)).1 =
        .finished (UInt32.ofNat unknown.length) (UInt32.ofNat (first.toNat + captures.length)) ∧
      (∃ given : List (Position × UInt32), given.map (·.1) = captures ∧
        (∀ a ∈ given, after.number? a.1 = some a.2) ∧
        messages =
          (if S.options.verbose then
            given.map (fun a => .numbered a.2 (S.forest.captureName a.1)) ++
              [.finished (S.forest.content r) (UInt32.ofNat unknown.length)
                (UInt32.ofNat captures.length)]
          else []) ∧
        messages.map Message.text =
          if S.options.verbose then
            given.map (fun a => "capture " ++ a.2.toNat.repr ++ " " ++ S.forest.captureName a.1) ++
              ["finish: \"" ++ S.forest.content r ++ "\" failures " ++ (unknown.length % 2 ^ 32).repr ++
                " captures " ++ (captures.length % 2 ^ 32).repr]
          else []) ∧
      Message.trace messages =
        String.join ((messages.map Message.text).map fun t => Text.cut t ++ "\n") := by
  intro captures first after messages
  have hr : r ∈ S.forest.positions := Forest.mem_positions.2 ⟨e, he⟩
  obtain ⟨unknown, hunknown, hfailures⟩ := failures_eq_find he hnode s
  have hnext := next_pass hr first
  have hcount : (S.pass r first).next - first = UInt32.ofNat captures.length := by
    rw [hnext, ← Numbering.add_ofNat, UInt32.add_comm, UInt32.add_sub_cancel]
  have hmessages : messages =
      if S.options.verbose then
        (S.pass r first).assigned.map (fun a => .numbered a.2 (S.forest.captureName a.1)) ++
          [.finished (S.forest.content r) (UInt32.ofNat unknown.length) (UInt32.ofNat captures.length)]
      else [] := by
    show (S.pass r first).messages ++ S.options.log _ = _
    rw [messages_pass hr, hcount, hfailures, Options.log, content_eq]
    split <;> rfl
  refine ⟨fun c => Forest.mem_captures, Forest.pairwise_precedes (S.forest.captures_sublist r), unknown,
    hunknown, ?_, ⟨(S.pass r first).assigned, S.map_fst_assigned r first,
    fun a => number?_of_mem_assigned, hmessages, ?_⟩, Message.trace_eq messages⟩
  · exact congrArg₂ Reply.finished hfailures hnext
  · rw [hmessages]
    exact map_text_finish S.options.verbose S.forest.captureName (S.forest.content r) _ _ _

/-- A capture whose start was not recognised holds a named capture, and an unknown token follows. The two
captures get the last number there is and zero, so the next number is one. A NUL in the name of the
second ends its line. -/
theorem finish_wrapped_result :
    let unknown : Element := .token ⟨.unknown, "?", Version.minimum, none⟩
    let tree : Element := .node
      [.group .capture (some unknown) none [.group (.named "n\x00m") none none [] none] none, unknown]
    let S := start ⟨[tree]⟩ ⟨true, 4294967295⟩
    let r : Position := ⟨0, []⟩
    let messages := (S.perform (.finish r)).2.1
    S.forest.get? r = some tree ∧ tree.isNode = true ∧
    (S.perform (.finish r)).1 = .finished 2 1 ∧
    messages = [.numbered 4294967295 "", .numbered 0 "n\x00m", .finished "??" 2 2] ∧
    (∃ given : List (Position × UInt32), given.map (·.1) = [⟨0, [.child 0]⟩, ⟨0, [.child 0, .child 0]⟩] ∧
      (∀ a ∈ given, (S.perform (.finish r)).2.2.number? a.1 = some a.2) ∧
      messages.map Message.text =
        given.map (fun a => "capture " ++ a.2.toNat.repr ++ " " ++ S.forest.captureName a.1) ++
          ["finish: \"??\" failures 2 captures 2"]) ∧
    messages.map Message.text =
      ["capture 4294967295 ", "capture 0 n\x00m", "finish: \"??\" failures 2 captures 2"] ∧
    Message.trace messages =
      "capture 4294967295 \ncapture 0 n\nfinish: \"??\" failures 2 captures 2\n" := by
  intro unknown tree S r messages
  have he : S.forest.get? r = some tree := rfl
  have hcaptures : S.forest.captures r = [⟨0, [.child 0]⟩, ⟨0, [.child 0, .child 0]⟩] := by decide
  have hcontent : S.forest.content r = "??" := by decide +kernel
  obtain ⟨-, -, found, hfound, hreply, ⟨given, hgiven, hnumbers, -, htexts⟩, htrace⟩ :=
    finish_result S r he rfl ()
  have hlength : found.length = 2 := by
    have htwo :
        (S.forest.find S.options r (.name "Token::Unknown") ()).result.map List.length = some 2 := by
      decide +kernel
    rw [hfound] at htwo
    exact Option.some.inj htwo
  rw [hlength, hcaptures] at hreply htexts
  rw [hcontent] at htexts
  have hlines : messages.map Message.text =
      ["capture 4294967295 ", "capture 0 n\x00m", "finish: \"??\" failures 2 captures 2"] := by
    decide +kernel
  refine ⟨he, rfl, hreply.trans (by decide), by decide +kernel,
    ⟨given, hgiven.trans hcaptures, hnumbers, ?_⟩, hlines, ?_⟩
  · exact htexts.trans (congrArg (_ ++ ·) (by decide +kernel))
  · rw [htrace, hlines]
    decide +kernel

end Session

end PatternTree
