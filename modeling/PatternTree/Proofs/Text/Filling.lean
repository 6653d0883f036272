import Mathlib
import PatternTree.Proofs.Text.Tokens
import PatternTree.Text.Fill

/-!
# What a filled format says

A text can be taken apart at its first placeholders in exactly one way (`Split.exists_text_eq`,
`Split.eq_of_text_eq`). Writing goes from placeholder to placeholder: the piece before it is copied, the
next argument is written as it is, and writing goes on behind the placeholder (`fillChars_append_cons`).
It ends at the terminator of the format (`fillChars_takeWhile`). So a filled format is the pieces with the
arguments between them, and where the pieces end does not depend on what the arguments hold (`fill_exact`).
-/

namespace PatternTree.Text

/-! ## Formats in pieces -/

/-- A text taken apart at its first placeholders: the pieces before them, which hold no placeholder, and the
rest of the text, which may hold more of them. -/
structure Split (placeholder : Char) where
  pieces : List String
  rest : String
  clean : ∀ s ∈ pieces, placeholder ∉ s.toList

namespace Split

variable {placeholder : Char}

/-- The number of placeholders at which the text is taken apart. -/
def size (s : Split placeholder) : Nat := s.pieces.length

/-- The pieces, a text after each of them, and the rest: `s₀ x₁ s₁ x₂ … xₘ sₘ`. -/
def weave (s : Split placeholder) (xs : List String) : String :=
  String.join (List.zipWith (· ++ ·) s.pieces xs) ++ s.rest

/-- The text that was taken apart, with a placeholder after each piece. -/
def text (s : Split placeholder) : String :=
  s.weave (List.replicate s.size (String.singleton placeholder))

/-- A text that is not taken apart. -/
def whole (placeholder : Char) (rest : String) : Split placeholder := ⟨[], rest, by simp⟩

/-- One more piece at the front. -/
def cons (piece : String) (hpiece : placeholder ∉ piece.toList) (s : Split placeholder) :
    Split placeholder :=
  ⟨piece :: s.pieces, s.rest, List.forall_mem_cons.2 ⟨hpiece, s.clean⟩⟩

/-- Every split is a whole text with pieces put before it. -/
theorem induction_pieces {motive : Split placeholder → Prop}
    (whole : ∀ rest, motive (whole placeholder rest))
    (cons : ∀ piece hpiece s, motive s → motive (cons piece hpiece s)) (s : Split placeholder) :
    motive s := by
  obtain ⟨pieces, rest, clean⟩ := s
  induction pieces with
  | nil => exact whole rest
  | cons piece pieces ih =>
    obtain ⟨hpiece, hpieces⟩ := List.forall_mem_cons.1 clean
    exact cons piece hpiece ⟨pieces, rest, hpieces⟩ (ih hpieces)

@[simp]
theorem size_whole (rest : String) : (whole placeholder rest).size = 0 := rfl

@[simp]
theorem size_cons (piece : String) (hpiece : placeholder ∉ piece.toList) (s : Split placeholder) :
    (cons piece hpiece s).size = s.size + 1 := rfl

@[simp]
theorem rest_whole (rest : String) : (whole placeholder rest).rest = rest := rfl

@[simp]
theorem rest_cons (piece : String) (hpiece : placeholder ∉ piece.toList) (s : Split placeholder) :
    (cons piece hpiece s).rest = s.rest := rfl

@[simp]
theorem weave_whole (rest : String) (xs : List String) : (whole placeholder rest).weave xs = rest := by
  simp [weave, whole]

@[simp]
theorem weave_cons (piece : String) (hpiece : placeholder ∉ piece.toList) (s : Split placeholder)
    (x : String) (xs : List String) :
    (cons piece hpiece s).weave (x :: xs) = piece ++ x ++ s.weave xs := by
  simp [weave, cons, String.append_assoc]

@[simp]
theorem text_whole (rest : String) : (whole placeholder rest).text = rest := by
  simp [text]

@[simp]
theorem toList_text_cons (piece : String) (hpiece : placeholder ∉ piece.toList) (s : Split placeholder) :
    (cons piece hpiece s).text.toList = piece.toList ++ placeholder :: s.text.toList := by
  simp [text, List.replicate_succ]

/-- The placeholders of the text are those at which it is taken apart and those of the rest. -/
theorem count_text (s : Split placeholder) :
    s.text.toList.count placeholder = s.size + s.rest.toList.count placeholder := by
  induction s using induction_pieces with
  | whole rest => simp
  | cons piece hpiece s ih =>
    have hnone : piece.toList.count placeholder = 0 := List.count_eq_zero.2 hpiece
    simp only [toList_text_cons, List.count_append, List.count_cons_self, hnone, ih, size_cons, rest_cons]
    omega

/-- A text can be taken apart at as many placeholders as it has, or at fewer. -/
theorem exists_text_eq {m : Nat} {g : String} (hm : m ≤ g.toList.count placeholder) :
    ∃ s : Split placeholder, s.text = g ∧ s.size = m := by
  induction m generalizing g with
  | zero => exact ⟨whole placeholder g, by simp⟩
  | succ m ih =>
    have hmem : placeholder ∈ g.toList := List.count_pos_iff.1 (by omega)
    obtain ⟨piece, rest, hg, hpiece⟩ := List.eq_append_cons_of_mem hmem
    have hrest : m ≤ (String.ofList rest).toList.count placeholder := by
      rw [hg, List.count_append, List.count_cons_self, List.count_eq_zero.2 hpiece] at hm
      rw [String.toList_ofList]
      omega
    obtain ⟨s, htext, hsize⟩ := ih hrest
    refine ⟨cons (String.ofList piece) (by simpa using hpiece) s, ?_, by simp [hsize]⟩
    rw [← String.toList_inj, toList_text_cons, htext, hg]
    simp

/-- A text can be taken apart at its first placeholders in one way only. -/
theorem eq_of_text_eq {s t : Split placeholder} (htext : s.text = t.text) (hsize : s.size = t.size) :
    s = t := by
  induction s using induction_pieces generalizing t with
  | whole rest =>
    cases t using induction_pieces with
    | whole rest' =>
      obtain rfl : rest = rest' := by simpa using htext
      rfl
    | cons piece hpiece t => simp at hsize
  | cons piece hpiece s ih =>
    cases t using induction_pieces with
    | whole rest => simp at hsize
    | cons piece' hpiece' t =>
      have hchars := congrArg String.toList htext
      rw [toList_text_cons, toList_text_cons] at hchars
      -- neither piece holds the placeholder behind it, so both end at the same one
      obtain ⟨hpieces, hrest⟩ := append_cons_inj hpiece hpiece' hchars
      obtain rfl : piece = piece' := String.toList_inj.1 hpieces
      obtain rfl : s = t := ih (String.toList_inj.1 hrest) (by simpa using hsize)
      rfl

end Split

/-! ## Writing -/

section

variable {placeholder : Char}

theorem terminator_notMem_cut (form : String) : terminator ∉ (cut form).toList := by
  rw [toList_cut]
  intro h
  simpa using List.mem_takeWhile_imp h

/-- Nothing behind the terminator is written. -/
theorem fillChars_takeWhile (cs : List Char) (args : List String) :
    fillChars placeholder (cs.takeWhile (· != terminator)) args = fillChars placeholder cs args := by
  fun_induction fillChars placeholder cs args <;> simp_all [fillChars]

/-- What has no terminator is copied if no argument is left, or if there is no place for one. -/
theorem fillChars_eq_self {cs : List Char} {args : List String} (hterminator : terminator ∉ cs)
    (h : args = [] ∨ placeholder ∉ cs) : fillChars placeholder cs args = cs := by
  fun_induction fillChars placeholder cs args <;> simp_all

/-- From one placeholder to the next: a piece without placeholders is copied, and the next argument is
written as it is. -/
theorem fillChars_append_cons {piece cs : List Char} (hpiece : placeholder ∉ piece)
    (hterminator : terminator ∉ piece ++ placeholder :: cs) (a : String) (as : List String) :
    fillChars placeholder (piece ++ placeholder :: cs) (a :: as) =
      piece ++ a.toList ++ fillChars placeholder cs as := by
  induction piece with
  | nil =>
    have hplaceholder : placeholder ≠ terminator := by
      rintro rfl
      simp at hterminator
    simp [fillChars, hplaceholder]
  | cons c piece ih =>
    have hc : c ≠ terminator ∧ c ≠ placeholder := by
      constructor <;> rintro rfl <;> simp_all
    have htail := ih (List.not_mem_of_not_mem_cons hpiece) (List.not_mem_of_not_mem_cons hterminator)
    simp only [List.cons_append, fillChars, if_neg hc.1, if_neg hc.2, htail]

/-- A whole run: the arguments stand between the pieces, and those that are left over are not written. -/
theorem fillChars_text (s : Split placeholder) {xs surplus : List String}
    (hterminator : terminator ∉ s.text.toList) (hxs : xs.length = s.size)
    (hsurplus : surplus = [] ∨ placeholder ∉ s.rest.toList) :
    fillChars placeholder s.text.toList (xs ++ surplus) = (s.weave xs).toList := by
  induction s using Split.induction_pieces generalizing xs with
  | whole rest =>
    obtain rfl : xs = [] := List.length_eq_zero_iff.1 hxs
    rw [Split.text_whole] at hterminator
    simpa using fillChars_eq_self hterminator hsurplus
  | cons piece hpiece s ih =>
    obtain ⟨a, as, rfl⟩ := List.exists_cons_of_length_eq_add_one hxs
    have has : as.length = s.size := by simpa using hxs
    rw [Split.toList_text_cons] at hterminator ⊢
    have htail : terminator ∉ s.text.toList := by
      intro h
      exact hterminator (by simp [h])
    rw [List.cons_append, fillChars_append_cons hpiece hterminator, ih htail has hsurplus]
    simp

end

/-! ## Filled formats -/

/-- The number of placeholders in a format, up to its terminator. -/
def places (placeholder : Char) (form : String) : Nat := (cut form).toList.count placeholder

theorem places_eq {placeholder : Char} {form : String} {s : Split placeholder} (htext : s.text = cut form) :
    places placeholder form = s.size + s.rest.toList.count placeholder := by
  rw [places, ← htext, s.count_text]

/-- The arguments that get a placeholder stand between the pieces of the format. -/
theorem fill_eq_weave {placeholder : Char} {form : String} {args : List String} {s : Split placeholder}
    (htext : s.text = cut form) (hsize : s.size = min (places placeholder form) args.length) :
    fill placeholder form args = s.weave (args.take s.size) := by
  have hterminator : terminator ∉ s.text.toList := htext ▸ terminator_notMem_cut form
  have hplaces := places_eq htext
  -- an argument is left over only if the rest has no place for it
  have hsurplus : args.drop s.size = [] ∨ placeholder ∉ s.rest.toList := by
    rw [List.drop_eq_nil_iff, ← List.count_eq_zero]
    omega
  have hxs : (args.take s.size).length = s.size := List.length_take_of_le (by omega)
  have hrun := fillChars_text s hterminator hxs hsurplus
  rw [List.take_append_drop, htext, toList_cut, fillChars_takeWhile] at hrun
  rw [fill, hrun, String.ofList_toList]

/-- **A filled format.** Let the format up to its first NUL have `p` placeholders, of which
`m = min p n` get one of the `n` arguments. Then it is `s₀ F s₁ F … F sₘ` in exactly one way such that no
piece but the last holds the placeholder `F`. If there are enough placeholders, the filled format is
`s₀ a₁ s₁ … aₘ sₘ` with all the arguments, and the other `p - m` placeholders stay where they are in `sₘ`.
If there are not, it is the same with the first `p` arguments. Each argument's text appears as it is,
whatever it holds. -/
theorem fill_exact (placeholder : Char) (form : String) (args : List String) :
    (∃! s : Split placeholder,
      s.text = cut form ∧ s.size = min (places placeholder form) args.length) ∧
    ∀ s : Split placeholder,
      s.text = cut form → s.size = min (places placeholder form) args.length →
        (args.length ≤ places placeholder form → fill placeholder form args = s.weave args) ∧
        (places placeholder form < args.length →
          fill placeholder form args = s.weave (args.take (places placeholder form))) ∧
        s.rest.toList.count placeholder = places placeholder form - s.size := by
  refine ⟨?_, fun s htext hsize => ⟨fun hargs => ?_, fun hargs => ?_, ?_⟩⟩
  · obtain ⟨s, htext, hsize⟩ := Split.exists_text_eq (Nat.min_le_left (places placeholder form) args.length)
    refine ⟨s, ⟨htext, hsize⟩, ?_⟩
    rintro t ⟨httext, htsize⟩
    exact Split.eq_of_text_eq (httext.trans htext.symm) (htsize.trans hsize.symm)
  · have hall : s.size = args.length := hsize.trans (Nat.min_eq_right hargs)
    rw [fill_eq_weave htext hsize, hall, List.take_length]
  · have hplaces : s.size = places placeholder form := hsize.trans (Nat.min_eq_left hargs.le)
    rw [fill_eq_weave htext hsize, hplaces]
  · rw [places_eq htext, Nat.add_sub_cancel_left]

/-- Two placeholders in a row, arguments that are a placeholder and a NUL, a placeholder that gets no
argument, and one behind the end of the format; and an argument that gets no placeholder. -/
theorem fill_neighbours :
    fill '%' "%%-%\x00%" ["%", "\x00"] = "%\x00-%" ∧ fill '%' "a%" ["%", "b"] = "a%" := by
  constructor
  · exact ((fill_exact '%' "%%-%\x00%" ["%", "\x00"]).2 ⟨["", ""], "-%", by decide⟩ (by decide) (by decide)).1
      (by decide)
  · exact ((fill_exact '%' "a%" ["%", "b"]).2 ⟨["a"], "", by decide⟩ (by decide) (by decide)).2.1 (by decide)

end PatternTree.Text
