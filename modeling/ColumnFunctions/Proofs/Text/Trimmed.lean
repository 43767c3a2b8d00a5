import ColumnFunctions.Text.Blank
import Mathlib.Data.List.TakeWhile

namespace ColumnFunctions.Text

def AllBlank (cs : List Char) : Prop := ∀ c ∈ cs, isBlank c

theorem AllBlank.reverse {cs : List Char} (h : AllBlank cs) : AllBlank cs.reverse :=
  fun c hc ↦ h c (List.mem_reverse.1 hc)

/-- What is left without the blanks in front: the trimmed text and the blanks behind it. -/
theorem dropWhile_isBlank (cs : List Char) : cs.dropWhile isBlank =
    trimChars cs ++ ((cs.dropWhile isBlank).reverse.takeWhile isBlank).reverse := by
  rw [trimChars, ← List.reverse_append, List.takeWhile_append_dropWhile, List.reverse_reverse]

theorem exists_trimChars (cs : List Char) :
    ∃ b b', cs = b ++ (trimChars cs ++ b') ∧ AllBlank b ∧ AllBlank b' := by
  refine ⟨cs.takeWhile isBlank, ((cs.dropWhile isBlank).reverse.takeWhile isBlank).reverse, ?_,
    fun c hc ↦ List.mem_takeWhile_imp hc, fun c hc ↦ ?_⟩
  · rw [← dropWhile_isBlank, List.takeWhile_append_dropWhile]
  · exact List.mem_takeWhile_imp (List.mem_reverse.1 hc)

theorem trimChars_eq_nil {cs : List Char} : trimChars cs = [] ↔ AllBlank cs := by
  constructor
  · intro h
    obtain ⟨b, b', hcs, hb, hb'⟩ := exists_trimChars cs
    rw [h, List.nil_append] at hcs
    rw [hcs]
    exact List.forall_mem_append.2 ⟨hb, hb'⟩
  · intro h
    rw [trimChars, List.dropWhile_eq_nil_iff.2 h]
    rfl

structure Trimmed (cs t : List Char) : Prop where
  around : ∃ b b', cs = b ++ (t ++ b') ∧ AllBlank b ∧ AllBlank b'
  first : ∀ c ∈ t.head?, ¬ isBlank c
  last : ∀ c ∈ t.getLast?, ¬ isBlank c

theorem head?_dropWhile_isBlank (cs : List Char) :
    ∀ c ∈ (cs.dropWhile isBlank).head?, ¬ isBlank c := by
  intro c hc
  have hhead := List.head?_dropWhile_not isBlank cs
  rw [Option.mem_def.1 hc] at hhead
  rw [hhead]
  exact Bool.false_ne_true

theorem trimmed_trimChars (cs : List Char) : Trimmed cs (trimChars cs) := by
  refine ⟨exists_trimChars cs, fun c hc ↦ ?_, fun c hc ↦ ?_⟩
  · have hhead : c ∈ (cs.dropWhile isBlank).head? := by
      rw [dropWhile_isBlank, List.head?_append, Option.mem_def.1 hc]
      rfl
    exact head?_dropWhile_isBlank cs c hhead
  · rw [trimChars, List.getLast?_reverse] at hc
    exact head?_dropWhile_isBlank _ c hc

theorem dropWhile_isBlank_of_head? {b cs : List Char} (hb : AllBlank b)
    (h : ∀ c ∈ cs.head?, ¬ isBlank c) : (b ++ cs).dropWhile isBlank = cs := by
  rw [List.dropWhile_append_of_pos hb]
  cases cs with
  | nil => rfl
  | cons c cs => exact List.dropWhile_cons_of_neg (h c rfl)

theorem Trimmed.trimChars_eq {cs t : List Char} (h : Trimmed cs t) (hne : t ≠ []) :
    trimChars cs = t := by
  obtain ⟨⟨b, b', rfl, hb, hb'⟩, hfirst, hlast⟩ := h
  obtain ⟨c, t, rfl⟩ := List.exists_cons_of_ne_nil hne
  have hstart : (b ++ (c :: t ++ b')).dropWhile isBlank = c :: t ++ b' :=
    dropWhile_isBlank_of_head? hb hfirst
  have hend : (c :: t ++ b').reverse.dropWhile isBlank = (c :: t).reverse := by
    rw [List.reverse_append]
    refine dropWhile_isBlank_of_head? hb'.reverse fun d hd ↦ hlast d ?_
    rwa [List.head?_reverse] at hd
  rw [trimChars, hstart, hend, List.reverse_reverse]

theorem trimChars_append {b cs b' : List Char} (hb : AllBlank b) (hb' : AllBlank b') (hcs : cs ≠ [])
    (h : ∀ c ∈ cs, ¬ isBlank c) : trimChars (b ++ (cs ++ b')) = cs := by
  have htrimmed : Trimmed (b ++ (cs ++ b')) cs :=
    ⟨⟨b, b', rfl, hb, hb'⟩, fun c hc ↦ h c (List.mem_of_mem_head? hc),
      fun c hc ↦ h c (List.mem_of_mem_getLast? hc)⟩
  exact htrimmed.trimChars_eq hcs

theorem nonBlank?_eq_none {s : String} : nonBlank? s = none ↔ AllBlank s.toList := by
  have hempty : trim s = "" ↔ AllBlank s.toList := by
    rw [trim, ← String.toList_inj, String.toList_ofList]
    exact trimChars_eq_nil
  rw [nonBlank?, ← hempty]
  split
  · next h => exact iff_of_true rfl h
  · next h => exact iff_of_false (nomatch ·) h

theorem nonBlank?_eq_some {s t : String} :
    nonBlank? s = some t ↔ t ≠ "" ∧ Trimmed s.toList t.toList := by
  rw [nonBlank?, trim]
  constructor
  · intro h
    split at h
    · cases h
    · next hne =>
      cases h
      refine ⟨hne, ?_⟩
      rw [String.toList_ofList]
      exact trimmed_trimChars s.toList
  · rintro ⟨hne, h⟩
    have hchars : t.toList ≠ [] := by simpa using hne
    rw [h.trimChars_eq hchars, String.ofList_toList, if_neg hne]

end ColumnFunctions.Text
