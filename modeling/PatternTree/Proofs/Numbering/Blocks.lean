import Mathlib
import PatternTree.Proofs.Numbering.Document
import PatternTree.Proofs.Store.Frame

/-!
# Blocks of numbers

A pass that comes to a capture goes through all that is reached from it before it goes on. So the captures
reached from there are one `Block` of all captures of the pass (`exists_block`), and their numbers follow
that of the capture without a gap (`map_number?_inside`). A pass over the capture alone that starts with the
number it has gives every number of the block once more, and nothing changes (`number_again`).
-/

namespace PatternTree

namespace Forest

/-- The captures of a pass over `r` around the capture `c`: those before it, those inside it, and those
that come later. -/
structure Block (F : Forest) (r c : Position) where
  before : List Position
  inside : List Position
  later : List Position
  row : F.captures r = before ++ (c :: inside) ++ later
  block : F.captures c = c :: inside

namespace Block

variable {F : Forest} {r c : Position} (b : F.Block r c)

/-- The number of the capture if the first one of the pass has number `n`. -/
def first (n : UInt32) : UInt32 := n + UInt32.ofNat b.before.length

/-- The number after the last one of the block. -/
def next (n : UInt32) : UInt32 := b.first n + UInt32.ofNat (c :: b.inside).length

theorem numbered_row (n : UInt32) :
    Numbering.numbered n (F.captures r) =
      Numbering.numbered n b.before ++ Numbering.numbered (b.first n) (c :: b.inside) ++
        Numbering.numbered (b.next n) b.later := by
  rw [b.row, Numbering.numbered_append, Numbering.numbered_append, List.length_append, UInt32.ofNat_add,
    ← UInt32.add_assoc]
  rfl

theorem next_eq_of_later_nil (n : UInt32) (h : b.later = []) :
    b.next n = n + UInt32.ofNat (F.captures r).length := by
  rw [b.row, h, List.append_nil, List.length_append, UInt32.ofNat_add, ← UInt32.add_assoc]
  rfl

end Block

/-- What is reached from an element stands together in what is reached from above. -/
theorem infix_childOrder {F : Forest} {r c : Position} (h : F.Reaches r c) :
    F.childOrder c <:+: F.childOrder r := by
  induction h using Relation.ReflTransGen.head_induction_on with
  | refl => exact List.infix_rfl
  | @head r q hq _ ih =>
    rw [childOrder_eq (mem_positions_of_mem_children hq).1]
    exact (ih.trans (List.infix_flatMap_of_mem hq F.childOrder)).trans (List.suffix_cons ..).isInfix

theorem mem_positions_of_reaches {F : Forest} {r c : Position} (hc : F.isCapture c = true)
    (h : F.Reaches r c) : r ∈ F.positions := by
  rcases h.cases_head with rfl | ⟨q, hq, -⟩
  · exact mem_positions_of_isCapture hc
  · exact (mem_positions_of_mem_children hq).1

/-- A pass that reaches a capture goes through its block. -/
theorem exists_block {F : Forest} {r c : Position} (hc : F.isCapture c = true) (h : F.Reaches r c) :
    Nonempty (F.Block r c) := by
  have hblock : F.captures c = c :: ((F.children c).flatMap F.childOrder).filter F.isCapture := by
    rw [captures, childOrder_eq (mem_positions_of_isCapture hc), List.filter_cons_of_pos hc]
  obtain ⟨before, later, hrow⟩ := (infix_childOrder h).filter F.isCapture
  exact ⟨⟨before, _, later, by rw [← hblock]; exact hrow.symm, hblock⟩⟩

end Forest

namespace Session

/-- To record numbers that are known already changes none. -/
theorem number?_record_of_known {S : Session} {p : Pass}
    (h : ∀ a ∈ p.assigned, S.number? a.1 = some a.2) (q : Position) :
    (S.record p).number? q = S.number? q := by
  rw [number?, record, List.lookup_append]
  cases hq : p.assigned.lookup q with
  | none => rfl
  | some k =>
    obtain ⟨before, after, hsplit, -⟩ := List.lookup_eq_some_iff.1 hq
    have hknown := h (q, k) (by rw [hsplit]; simp)
    rw [Option.some_or, ← hknown]

/-! ## The numbers of a block -/

section Block

variable {S : Session} {r c : Position} (b : S.forest.Block r c) (n : UInt32)

/-- A capture of the block has the number that its place in the block gives. -/
theorem number?_of_mem_block {a : Position × UInt32}
    (ha : a ∈ Numbering.numbered (b.first n) (c :: b.inside)) :
    (S.record (S.pass r n)).number? a.1 = some a.2 := by
  refine number?_of_mem_assigned ?_
  rw [assigned_pass, b.numbered_row]
  exact List.mem_append_left _ (List.mem_append_right _ ha)

theorem number?_first : (S.record (S.pass r n)).number? c = some (b.first n) :=
  number?_of_mem_block b n (a := (c, b.first n)) List.mem_cons_self

/-- Behind its first capture the block goes on without a gap. -/
theorem map_number?_inside :
    b.inside.map (S.record (S.pass r n)).number? =
      (List.range b.inside.length).map fun i => some (UInt32.ofNat ((b.first n).toNat + 1 + i)) := by
  have hinside : ∀ a ∈ Numbering.numbered (b.first n + 1) b.inside,
      (S.record (S.pass r n)).number? a.1 = some a.2 := fun a ha =>
    number?_of_mem_block b n (List.mem_cons_of_mem _ ha)
  refine (map_number?_eq hinside).trans (List.map_congr_left fun i _ => ?_)
  rw [← Numbering.add_ofNat, Numbering.add_one_add_ofNat, Numbering.add_ofNat, Nat.add_right_comm, Nat.add_assoc]

/-- What comes later goes on where the block ends. -/
theorem number?_later {q : Position} (hq : b.later.head? = some q) :
    (S.record (S.pass r n)).number? q = some (b.next n) := by
  obtain ⟨rest, hlater⟩ := List.head?_eq_some_iff.1 hq
  refine number?_of_mem_assigned (a := (q, b.next n)) ?_
  rw [assigned_pass, b.numbered_row, hlater]
  exact List.mem_append_right _ List.mem_cons_self

/-- A pass over the capture alone, from its own number on, comes to the end of the block. -/
theorem next_pass_again (hc : S.forest.isCapture c = true) :
    ((S.record (S.pass r n)).pass c (b.first n)).next = b.next n := by
  have hcF : c ∈ (S.record (S.pass r n)).forest.positions := Forest.mem_positions_of_isCapture hc
  rw [next_pass hcF, ← Numbering.add_ofNat]
  exact congrArg (fun l => b.first n + UInt32.ofNat l.length) b.block

/-- Such a pass changes no number. -/
theorem number?_pass_again (q : Position) :
    ((S.record (S.pass r n)).record ((S.record (S.pass r n)).pass c (b.first n))).number? q =
      (S.record (S.pass r n)).number? q := by
  refine number?_record_of_known (fun a ha => number?_of_mem_block b n ?_) q
  rwa [assigned_pass, show (S.record (S.pass r n)).forest.captures c = c :: b.inside from b.block] at ha

end Block

end Session

namespace StoredSession

/-- On what any requests have made, and after any commands, there is a session that agrees. -/
theorem start_run_agrees (requests : List (Request (Option Nat))) (options : Options)
    (commands : List Command) :
    ∃ L S, (start requests options >>= fun L => L.run commands) = .ok L ∧ Agrees L S ∧
      S.forest = ⟨(Request.elements requests).filterMap id⟩ := by
  obtain ⟨L₀, hstart, h₀⟩ := start_agrees requests options
  obtain ⟨L, hrun, h, -⟩ := h₀.run commands
  exact ⟨L, _, by rw [hstart]; exact hrun, h, Session.forest_run ..⟩

/-- **Numbering is local.** On what any requests have made, and after any commands, let an element be
numbered from `n` on. What the pass reaches is a row of captures in document order, and the captures that
are reached from one of them are a block in that row, which it leads. Their numbers follow its own without
a gap. If this capture is numbered again from its own number on, every number in the forest stays, and the
answer is its number and as many as the block has captures, modulo 2^32. This is the number of the
capture that follows the block or, if none follows, the answer to the pass over the whole. -/
theorem number_again (requests : List (Request (Option Nat))) (options : Options) (earlier : List Command)
    (target : Position) (n : UInt32) :
    let F : Forest := ⟨(Request.elements requests).filterMap id⟩
    (∀ r, (∀ c, c ∈ F.captures r ↔ F.isCapture c = true ∧ F.Reaches r c) ∧
      (F.captures r).Pairwise F.Precedes) ∧
    ∃ L M answer messages, (start requests options >>= fun L => L.run earlier) = .ok L ∧
      L.perform (.number target n) = .ok (.next answer, messages, M) ∧
      ∀ c, F.isCapture c = true → F.Reaches target c →
        ∃ (b : F.Block target c) (number : UInt32), M.number? c = some number ∧
          number.toNat = (n.toNat + b.before.length) % 2 ^ 32 ∧
          b.inside.map M.number? =
            (List.range b.inside.length).map (fun i => some (UInt32.ofNat (number.toNat + 1 + i))) ∧
          ∃ next told N, M.perform (.number c number) = .ok (.next next, told, N) ∧
            (∀ q, N.number? q = M.number? q) ∧
            next.toNat = (number.toNat + (F.captures c).length) % 2 ^ 32 ∧
            (∀ q, b.later.head? = some q → M.number? q = some next) ∧
            (b.later = [] → answer = next) := by
  intro F
  obtain ⟨L, S, hL, h, hforest⟩ := start_run_agrees requests options earlier
  obtain ⟨M, hM, hagrees, -⟩ := h.perform (.number target n)
  change S.forest = F at hforest
  clear_value F
  subst hforest
  refine ⟨fun r => ⟨fun c => Forest.mem_captures, Forest.pairwise_precedes (S.forest.captures_sublist r)⟩,
    L, M, _, _, hL, hM, fun c hc hreach => ?_⟩
  obtain ⟨b⟩ := Forest.exists_block hc hreach
  obtain ⟨N, hN, hagain, -⟩ := hagrees.perform (.number c (b.first n))
  have hnext := Session.next_pass_again b n hc
  refine ⟨b, b.first n, ?_, by simp [Forest.Block.first, UInt32.toNat_add], ?_,
    ((S.record (S.pass target n)).pass c (b.first n)).next, _, N, hN, fun q => ?_, ?_, fun q hq => ?_,
    fun hlater => ?_⟩
  · rw [hagrees.number]
    exact Session.number?_first b n
  · rw [funext hagrees.number]
    exact Session.map_number?_inside b n
  · rw [hagain.number, hagrees.number]
    exact Session.number?_pass_again b n q
  · rw [hnext, Forest.Block.next, ← b.block]
    simp [UInt32.toNat_add]
  · rw [hnext, hagrees.number]
    exact Session.number?_later b n hq
  · rw [hnext, b.next_eq_of_later_nil n hlater, Numbering.add_ofNat]
    exact Session.next_pass (Forest.mem_positions_of_reaches hc hreach) n

/-- A capture with a named capture and another one inside, and a third one after it. -/
def rowRequests : List (Request (Option Nat)) :=
  [.group (.named "n") none none [] none, .group .capture none none [] none,
    .group .capture none none [some 0, some 1] none, .group .capture none none [] none,
    .node [some 2, some 3]]

/-- The numbers start again at zero inside the block. Numbering its first capture again comes to the number of
the capture that follows. -/
theorem row_number_again :
    let F : Forest := ⟨(Request.elements rowRequests).filterMap id⟩
    let root : Position := ⟨0, []⟩
    let c := root.push (.child 0)
    F.isCapture c = true ∧ F.Reaches root c ∧
    ∃ L M answer messages, (start rowRequests {} >>= fun L => L.run []) = .ok L ∧
      L.perform (.number root 4294967295) = .ok (.next answer, messages, M) ∧
      M.number? c = some 4294967295 ∧
      [c.push (.child 0), c.push (.child 1)].map M.number? = [some 0, some 1] ∧
      ∃ told N, M.perform (.number c 4294967295) = .ok (.next 2, told, N) ∧
        (∀ q, N.number? q = M.number? q) ∧ M.number? (root.push (.child 1)) = some 2 := by
  intro F root c
  have hc : F.isCapture c = true := by decide +kernel
  have hreach : F.Reaches root c := (Forest.mem_childOrder (by decide +kernel)).1 (by decide +kernel)
  obtain ⟨-, L, M, answer, messages, hL, hM, hblock⟩ := number_again rowRequests {} [] root 4294967295
  obtain ⟨b, number, hnumber, hfirst, hinside, next, told, N, hN, hkeeps, hnext, hlater, -⟩ := hblock c hc hreach
  have hthree : F.captures c = [c, c.push (.child 0), c.push (.child 1)] := by decide +kernel
  have hfour : F.captures root = [c, c.push (.child 0), c.push (.child 1), root.push (.child 1)] := by
    decide +kernel
  have hin : b.inside = [c.push (.child 0), c.push (.child 1)] := (List.cons.inj (b.block.symm.trans hthree)).2
  obtain ⟨hbefore, hafter⟩ : b.before = [] ∧ b.later = [root.push (.child 1)] := by
    have hrow := hfour.symm.trans b.row
    rw [hin] at hrow
    generalize b.before = before, b.later = later at hrow
    rcases before with _ | ⟨x, _ | ⟨y, before⟩⟩
    · simpa [eq_comm] using hrow
    · simp [c, Position.push] at hrow
    · have hlen := congrArg List.length hrow
      simp at hlen
      omega
  rw [hbefore] at hfirst
  rw [hin] at hinside
  obtain rfl : number = 4294967295 := UInt32.toNat_inj.1 hfirst
  obtain rfl : next = 2 := UInt32.toNat_inj.1 (hnext.trans (by rw [hthree]; decide))
  exact ⟨hc, hreach, L, M, answer, messages, hL, hM, hnumber, hinside.trans (by decide), told, N, hN,
    hkeeps, hlater _ (by rw [hafter]; rfl)⟩

end StoredSession

end PatternTree
