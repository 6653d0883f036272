import Mathlib
import PatternTree.Proofs.Search.Kinds
import PatternTree.Proofs.Version.RoundTrip
import PatternTree.Token

/-!
# The texts of tokens

The text of a token has four fields, and the second of them, the content, may hold anything, also what
separates the fields or what looks like another token. The other three never hold a comma or a blank. So
the kind is read off from the front, where it ends at the first comma, and the versions are read off from
the end, where each starts after the last blank (`append_cons_inj`, `cons_append_inj`). What remains
between them is the content, and the text tells all four (`text_inj`).
-/

namespace PatternTree

namespace Text

/-! ## Separators -/

/-- A field that does not hold the separator behind it ends at the first one. -/
theorem append_cons_inj {x : Char} {a b s t : List Char} (ha : x ∉ a) (hb : x ∉ b)
    (h : a ++ x :: s = b ++ x :: t) : a = b ∧ s = t := by
  induction a generalizing b with
  | nil =>
    cases b with
    | nil => exact ⟨rfl, (List.cons.inj h).2⟩
    | cons d b =>
      obtain ⟨rfl, -⟩ := List.cons.inj h
      exact absurd List.mem_cons_self hb
  | cons c a ih =>
    cases b with
    | nil =>
      obtain ⟨rfl, -⟩ := List.cons.inj h
      exact absurd List.mem_cons_self ha
    | cons d b =>
      obtain ⟨rfl, htail⟩ := List.cons.inj h
      obtain ⟨rfl, hst⟩ := ih (List.not_mem_of_not_mem_cons ha) (List.not_mem_of_not_mem_cons hb) htail
      exact ⟨rfl, hst⟩

/-- A field that does not hold the separator before it starts after the last one. -/
theorem cons_append_inj {x : Char} {a b s t : List Char} (ha : x ∉ a) (hb : x ∉ b)
    (h : s ++ x :: a = t ++ x :: b) : s = t ∧ a = b := by
  have hreverse : a.reverse ++ x :: s.reverse = b.reverse ++ x :: t.reverse := by
    simpa using congrArg List.reverse h
  obtain ⟨hab, hst⟩ := append_cons_inj (mt List.mem_reverse.1 ha) (mt List.mem_reverse.1 hb) hreverse
  exact ⟨List.reverse_inj.1 hst, List.reverse_inj.1 hab⟩

end Text

/-! ## Fields -/

namespace Version

theorem isDigit_or_point_of_mem_text {v : Version} {c : Char} (hc : c ∈ v.text.toList) :
    c.isDigit = true ∨ c = '.' := by
  rw [toList_text, List.mem_append, List.mem_cons] at hc
  rcases hc with hc | rfl | hc
  · exact Or.inl (isDigit_toDigits _ c hc)
  · exact Or.inr rfl
  · exact Or.inl (v.trimFraction_fractionDigits.1 c hc)

theorem blank_notMem_text (v : Version) : ' ' ∉ v.text.toList := by
  intro h
  rcases isDigit_or_point_of_mem_text h with h | h <;> cases h

theorem blank_notMem_optionText (v : Option Version) : ' ' ∉ (optionText v).toList := by
  cases v with
  | none => decide
  | some v => exact v.blank_notMem_text

/-- A missing version is told from every version by its text. -/
theorem optionText_injective : Function.Injective optionText := by
  have hundef : ∀ v : Version, v.text ≠ "undef" := by
    intro v h
    have hu : 'u' ∈ v.text.toList := by
      rw [h]
      decide
    rcases isDigit_or_point_of_mem_text hu with h | h <;> cases h
  intro v w h
  cases v with
  | none =>
    cases w with
    | none => rfl
    | some w => exact absurd h.symm (hundef w)
  | some v =>
    cases w with
    | none => exact absurd h (hundef v)
    | some w => rw [text_injective h]

end Version

theorem Kind.comma_notMem_name (k : Kind) : ',' ∉ k.name.toList := by
  cases k with
  | token k => cases k <;> simp [name]
  | _ => simp [name]

/-! ## The text -/

namespace Token

/-- The text as it is read: the kind up to the first comma, and behind the content two versions after
blanks. -/
theorem toList_text (t : Token) :
    t.text.toList = "\x7b ".toList ++ ((Kind.token t.kind).name.toList ++ ',' :: (" \"".toList ++
      (t.content.toList ++ "\",".toList ++ ' ' :: (t.introduced.text.toList ++ [',']) ++
        ' ' :: (Version.optionText t.removed).toList ++ " \x7d".toList))) := by
  simp [text, Text.format, Text.fill, Text.terminator, Text.fillChars, Text.Argument.render,
    Version.optionText]

/-- **Tokens are told apart by their texts.** The text of a token tells its kind, its content, the version
that introduced it and the one that removed it, if any, although nothing in the content is escaped. -/
theorem text_inj {t u : Token} : t.text = u.text ↔ t = u := by
  refine ⟨fun h => ?_, congrArg text⟩
  have hchars := congrArg String.toList h
  rw [toList_text, toList_text] at hchars
  -- from the front: the brace and the kind
  obtain ⟨hname, hrest⟩ := Text.append_cons_inj (Kind.comma_notMem_name _) (Kind.comma_notMem_name _)
    (List.append_cancel_left hchars)
  -- from the end: the brace and the versions
  obtain ⟨hrest, hremoved⟩ := Text.cons_append_inj (Version.blank_notMem_optionText _)
    (Version.blank_notMem_optionText _) (List.append_cancel_right (List.append_cancel_left hrest))
  have hblank : ∀ v : Version, ' ' ∉ v.text.toList ++ [','] := fun v => by simp [v.blank_notMem_text]
  obtain ⟨hcontent, hintroduced⟩ := Text.cons_append_inj (hblank _) (hblank _) hrest
  obtain ⟨kind, content, introduced, removed⟩ := t
  obtain ⟨kind', content', introduced', removed'⟩ := u
  obtain rfl : kind = kind' := Kind.token.inj (Kind.name_injective (String.toList_inj.1 hname))
  obtain rfl : content = content' := String.toList_inj.1 (List.append_cancel_right hcontent)
  obtain rfl : introduced = introduced' :=
    Version.text_injective (String.toList_inj.1 (List.append_cancel_right hintroduced))
  obtain rfl : removed = removed' := Version.optionText_injective (String.toList_inj.1 hremoved)
  rfl

end Token

end PatternTree
