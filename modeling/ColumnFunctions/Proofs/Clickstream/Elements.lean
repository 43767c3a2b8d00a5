import ColumnFunctions.Proofs.Clickstream.LineBreaks
import ColumnFunctions.Proofs.Json.Written
import Mathlib.Data.List.Forall2

namespace ColumnFunctions

open Json

def listText (elements : List String) : String := "[" ++ ",".intercalate elements ++ "]"

namespace Json

theorem Value.separated_eq (css : List (List Char)) : separated css = [','].intercalate css := by
  fun_induction separated css with
  | case1 => rfl
  | case2 cs => rw [List.intercalate_singleton]
  | case3 cs rest hne ih =>
    obtain ⟨d, rest, rfl⟩ := List.exists_cons_of_ne_nil hne
    rw [List.intercalate_cons_cons, ← ih, List.append_assoc]
    rfl

theorem toList_listText (elements : List String) :
    (listText elements).toList =
      '[' :: (Value.separated (elements.map String.toList) ++ [']']) := by
  rw [listText, String.toList_append, String.toList_append, String.toList_intercalate,
    Value.separated_eq]
  rfl

/-- The text of a list of values is made of theirs. -/
theorem Value.text_list (values : List Value) :
    (Value.list values).text = listText (values.map Value.text) := by
  have hchars : elementChars values = (values.map Value.text).map String.toList := by
    induction values with
    | nil => rfl
    | cons v values ih =>
      rw [elementChars, ih, List.map_cons, List.map_cons, text, String.toList_ofList]
  rw [← String.toList_inj, toList_listText, text, String.toList_ofList, chars, hchars,
    List.cons_append]

def treeOf (text : String) : Tree := (Document.ofText text).node.tree?.getD .null

theorem treeOf_eq {text : String} {t : Tree} (h : SpellsText t text.toList) : treeOf text = t := by
  rw [treeOf, (spellsText_iff.1 h).1, Option.getD_some]

/-- Elements behind the first of a list, after blanks that belong to the one before them. -/
theorem spells_continued {elements : List String}
    (h : ∀ e ∈ elements, SpellsText (treeOf e) e.toList) {b : List Char} (hb : Blanks b) :
    SpellsElements false (elements.map treeOf)
      (b ++ (Value.continued (elements.map String.toList) ++ [']'])) := by
  induction elements generalizing b with
  | nil => exact .close hb
  | cons e elements ih =>
    rw [List.forall_mem_cons] at h
    obtain ⟨he, hs⟩ := h
    rw [List.map_cons, List.map_cons, Value.continued, List.flatMap_cons]
    generalize treeOf e = t at he ⊢
    generalize e.toList = cs at he ⊢
    obtain ⟨hb₁, hb₂, he⟩ := he
    have hcons := SpellsElements.cons (.next hb hb₁) he (ih hs hb₂)
    simpa only [Value.continued, List.append_assoc, List.cons_append] using hcons

theorem spells_listText {elements : List String}
    (h : ∀ e ∈ elements, SpellsText (treeOf e) e.toList) :
    SpellsText (.list (elements.map treeOf)) (listText elements).toList := by
  have hlist : SpellsElements true (elements.map treeOf)
      (Value.separated (elements.map String.toList) ++ [']']) := by
    cases elements with
    | nil => exact .close blanks_nil
    | cons e elements =>
      rw [List.forall_mem_cons] at h
      obtain ⟨he, hs⟩ := h
      rw [List.map_cons, List.map_cons, Value.separated_cons]
      generalize treeOf e = t at he ⊢
      generalize e.toList = cs at he ⊢
      obtain ⟨hb, hb', he⟩ := he
      have hcons := SpellsElements.cons (.first hb) he (spells_continued hs hb')
      simpa only [List.append_assoc] using hcons
  have htext := SpellsText.mk blanks_nil blanks_nil (.list hlist)
  rwa [List.nil_append, List.append_nil, ← toList_listText] at htext

end Json

section Traversal

variable {α β γ : Type}

theorem mapM_eq_some {f : α → Option β} {xs : List α} {ys : List β} :
    xs.mapM f = some ys ↔ List.Forall₂ (fun x y ↦ f x = some y) xs ys := by
  induction xs generalizing ys with
  | nil => cases ys <;> simp
  | cons x xs ih =>
    rw [List.mapM_cons]
    cases hx : f x with
    | none => cases ys <;> simp [hx]
    | some y =>
      cases hxs : xs.mapM f with
      | none => cases ys <;> simp [hx, hxs, ← ih]
      | some ys' => cases ys <;> simp [hx, hxs, ← ih]

theorem exists_mapM_eq_some {f : α → Option β} {xs : List α} :
    (∃ ys, xs.mapM f = some ys) ↔ ∀ x ∈ xs, ∃ y, f x = some y := by
  induction xs with
  | nil => simp
  | cons x xs ih =>
    rw [List.forall_mem_cons, ← ih, List.mapM_cons]
    cases f x <;> cases xs.mapM f <;> simp

theorem mapM_option_map (f : α → Option β) (g : β → γ) (xs : List α) :
    xs.mapM (fun x ↦ (f x).map g) = (xs.mapM f).map (List.map g) := by
  induction xs with
  | nil => rfl
  | cons x xs ih =>
    rw [List.mapM_cons, List.mapM_cons, ih]
    cases f x <;> cases xs.mapM f <;> rfl

end Traversal

namespace Clickstream

section Reading

variable {α : Type} {read : Nat → Node → Except Complaint α} {toValue : α → Value}

/-- What an element of a list is written again as: a record, or null. -/
def rewriteAs? (read : (room : Nat) → Node → Except Complaint α) (toValue : α → Value)
    (element : String) : Option Value :=
  (readOption (read 126) (treeOf element).node).toOption.map (nullable toValue)

theorem readRecords_list (ts : List Tree) :
    (readRecords read maxDepth (Tree.list ts).node).toOption =
      (ts.mapM fun t ↦ (readOption (read 126) t.node).toOption).map some := by
  have hlist : readRecords read maxDepth (Tree.list ts).node =
      (readEach (readOption (read 126)) 0 (Json.Tree.elements ts)).map some := rfl
  rw [hlist, toOption_map, readEach_elements]

theorem reencodeAs_of_spells (hread : ∀ room, ByTree (read room)) {text : String} {t : Tree}
    (ht : SpellsText t text.toList) {u : String} :
    reencodeAs read toValue text = .ok u ↔
      ∃ p, (readRecords read maxDepth t.node).toOption = some p ∧ writePayload toValue p = u := by
  rw [reencodeAs_eq_ok hread]
  simp only [toOption_eq_some]
  constructor
  · rintro ⟨t', p, ht', hp, hu⟩
    rw [ht'.unique ht] at hp
    exact ⟨p, hp, hu⟩
  · exact fun ⟨p, hp, hu⟩ ↦ ⟨t, p, ht, hp, hu⟩

theorem reencodeAs_listText (hread : ∀ room, ByTree (read room)) {elements : List String}
    (h : ∀ e ∈ elements, SpellsText (treeOf e) e.toList) {u : String} :
    reencodeAs read toValue (listText elements) = .ok u ↔
      ∃ values, elements.mapM (rewriteAs? read toValue) = some values ∧
        (Value.list values).text = u := by
  have hmap : elements.mapM (rewriteAs? read toValue) =
      ((elements.map treeOf).mapM fun t ↦ (readOption (read 126) t.node).toOption).map
        (List.map (nullable toValue)) := by
    rw [List.mapM_map, ← mapM_option_map]
    rfl
  rw [reencodeAs_of_spells hread (spells_listText h), readRecords_list, hmap]
  constructor
  · rintro ⟨p, hp, hu⟩
    obtain ⟨records, hrecords, rfl⟩ := Option.map_eq_some_iff.1 hp
    exact ⟨_, by rw [hrecords]; rfl, hu⟩
  · rintro ⟨values, hvalues, hu⟩
    obtain ⟨records, hrecords, rfl⟩ := Option.map_eq_some_iff.1 hvalues
    exact ⟨some records, by rw [hrecords]; rfl, hu⟩

end Reading

def rewrite? : Shape → String → Option Value
  | .event => rewriteAs? EventRecord.ofNode EventRecord.toValue
  | .attribute => rewriteAs? AttributeRecord.ofNode AttributeRecord.toValue
  | .user => rewriteAs? UserRecord.ofNode UserRecord.toValue

variable {shape : Shape} {elements : List String} {e u : String}

/-- A list is written again as the list of what its elements are. -/
theorem reencode_listText (h : ∀ e ∈ elements, SpellsText (treeOf e) e.toList) :
    reencode shape (listText elements) = .ok u ↔
      ∃ values, elements.mapM (rewrite? shape) = some values ∧ (Value.list values).text = u := by
  cases shape
  · exact reencodeAs_listText EventRecord.byTree_ofNode h
  · exact reencodeAs_listText AttributeRecord.byTree_ofNode h
  · exact reencodeAs_listText UserRecord.byTree_ofNode h

theorem reencode_single (h : SpellsText (treeOf e) e.toList) :
    reencode shape (listText [e]) = .ok u ↔
      ∃ v, rewrite? shape e = some v ∧ (Value.list [v]).text = u := by
  rw [reencode_listText (by simpa using h), List.mapM_cons, List.mapM_nil]
  cases rewrite? shape e <;> simp

theorem rewrite?_null (h : SpellsText .null e.toList) : rewrite? shape e = some .null := by
  cases shape <;> rw [rewrite?, rewriteAs?, treeOf_eq h] <;> rfl

theorem listText_single_injective {o o' : String} (h : listText [o] = listText [o']) : o = o' := by
  rw [← String.toList_inj, toList_listText, toList_listText] at h
  exact String.toList_inj.1 (List.append_cancel_right (List.cons.inj h).2)

section Decoding

variable {b : Bytes} {text : String}

theorem decode_eq_reencode {t : Tree} (ht : SpellsText t text.toList)
    (hb : Gzip.decompress b = .ok (Bytes.ofText text)) :
    decode shape (some (Base64.encode b)) = .ok (some u) ↔ reencode shape text = .ok u := by
  rw [decode_encode hb]
  constructor
  · refine reencode_of_spells fun t' ht' ↦ ?_
    rwa [ht'.unique (spellsText_joinLines ht)]
  · exact reencode_of_spells fun _ ↦ spellsText_joinLines

theorem kind_of_decode (hb : Gzip.decompress b = .ok (Bytes.ofText text))
    (h : ∀ u, decode shape (some (Base64.encode b)) ≠ .ok (some u)) :
    ∃ detail,
      decode shape (some (Base64.encode b)) = .error ⟨.malformedCompressedData, detail⟩ := by
  have hinflate : inflateText (Base64.encode b) = .ok (joinLines text) :=
    inflateText_encode_eq_ok.2 ⟨text, hb, rfl⟩
  simp only [decode, hinflate, bind, Except.bind] at h ⊢
  cases hr : reencode shape (joinLines text) with
  | ok json =>
    rw [hr] at h
    exact absurd rfl (h json)
  | error c => exact ⟨_, rfl⟩

end Decoding

section Elementwise

variable (hs : ∀ e ∈ elements, SpellsText (treeOf e) e.toList)
include hs

/-- A list is written again if each of its elements alone is. -/
theorem exists_reencode_listText : (∃ u, reencode shape (listText elements) = .ok u) ↔
    ∀ e ∈ elements, ∃ u, reencode shape (listText [e]) = .ok u := by
  have hlist : (∃ u, reencode shape (listText elements) = .ok u) ↔
      ∃ values, elements.mapM (rewrite? shape) = some values := by
    constructor
    · rintro ⟨u, hu⟩
      obtain ⟨values, hvalues, -⟩ := (reencode_listText hs).1 hu
      exact ⟨values, hvalues⟩
    · rintro ⟨values, hvalues⟩
      exact ⟨_, (reencode_listText hs).2 ⟨values, hvalues, rfl⟩⟩
  rw [hlist, exists_mapM_eq_some]
  refine forall₂_congr fun e he ↦ ?_
  constructor
  · rintro ⟨v, hv⟩
    exact ⟨_, (reencode_single (hs e he)).2 ⟨v, hv, rfl⟩⟩
  · rintro ⟨u, hu⟩
    obtain ⟨v, hv, -⟩ := (reencode_single (hs e he)).1 hu
    exact ⟨v, hv⟩

theorem reencode_of_forall₂ {outputs : List String}
    (ho : List.Forall₂ (fun e o ↦ reencode shape (listText [e]) = .ok (listText [o]))
      elements outputs) :
    reencode shape (listText elements) = .ok (listText outputs) := by
  have htexts : elements.mapM (fun e ↦ (rewrite? shape e).map Value.text) = some outputs := by
    refine mapM_eq_some.2 (List.Forall₂.imp ?_ ((List.forall₂_and_left _ _).2 ⟨hs, ho⟩))
    rintro e o ⟨he, ho⟩
    obtain ⟨v, hv, hu⟩ := (reencode_single he).1 ho
    rw [hv, Option.map_some, listText_single_injective (hu.symm.trans (Value.text_list [v]))]
  rw [mapM_option_map] at htexts
  obtain ⟨values, hvalues, rfl⟩ := Option.map_eq_some_iff.1 htexts
  exact (reencode_listText hs).2 ⟨values, hvalues, Value.text_list values⟩

theorem exists_values_of_reencode (hu : reencode shape (listText elements) = .ok u) :
    ∃ values : List Value, u = listText (values.map Value.text) ∧
      List.Forall₂ (fun e v ↦ reencode shape (listText [e]) = .ok (listText [v.text]))
        elements values := by
  obtain ⟨values, hvalues, rfl⟩ := (reencode_listText hs).1 hu
  refine ⟨values, Value.text_list values, ?_⟩
  refine List.Forall₂.imp ?_ ((List.forall₂_and_left _ _).2 ⟨hs, mapM_eq_some.1 hvalues⟩)
  rintro e v ⟨he, hv⟩
  exact (reencode_single he).2 ⟨v, hv, Value.text_list [v]⟩

end Elementwise

/-- A list of elements, each the text of a value, is written again if each of them alone is, and
then as the list of what these are written as: as many, in their order, null where null was. One
element that is refused alone refuses the list and every payload of it. -/
theorem reencode_elementwise (shape : Shape) (elements : List String)
    (h : ∀ e ∈ elements, ∃ t, SpellsText t e.toList) :
    ((∃ u, reencode shape (listText elements) = .ok u) ↔
      ∀ e ∈ elements, ∃ u, reencode shape (listText [e]) = .ok u) ∧
    (∀ outputs, List.Forall₂ (fun e o ↦ reencode shape (listText [e]) = .ok (listText [o]))
      elements outputs → reencode shape (listText elements) = .ok (listText outputs)) ∧
    (∀ u, reencode shape (listText elements) = .ok u → ∃ values : List Value,
      u = listText (values.map Value.text) ∧
      List.Forall₂ (fun e v ↦ reencode shape (listText [e]) = .ok (listText [v.text]))
        elements values) ∧
    (∀ e ∈ elements, SpellsText .null e.toList →
      reencode shape (listText [e]) = .ok (listText ["null"])) ∧
    ∀ b, Gzip.decompress b = .ok (Bytes.ofText (listText elements)) →
      (∀ u, decode shape (some (Base64.encode b)) = .ok (some u) ↔
        reencode shape (listText elements) = .ok u) ∧
      ((∃ e ∈ elements, ∀ u, reencode shape (listText [e]) ≠ .ok u) →
        ∃ detail, decode shape (some (Base64.encode b)) =
          .error ⟨.malformedCompressedData, detail⟩) := by
  have hs : ∀ e ∈ elements, SpellsText (treeOf e) e.toList := by
    intro e he
    obtain ⟨t, ht⟩ := h e he
    rwa [treeOf_eq ht]
  refine ⟨exists_reencode_listText hs, fun _ ↦ reencode_of_forall₂ hs,
    fun _ ↦ exists_values_of_reencode hs, ?_, ?_⟩
  · intro e he hnull
    exact (reencode_single (hs e he)).2 ⟨.null, rewrite?_null hnull, Value.text_list [.null]⟩
  · intro b hb
    have hdecode : ∀ u, decode shape (some (Base64.encode b)) = .ok (some u) ↔
        reencode shape (listText elements) = .ok u :=
      fun u ↦ decode_eq_reencode (spells_listText hs) hb
    refine ⟨hdecode, ?_⟩
    rintro ⟨e, he, hne⟩
    refine kind_of_decode hb fun u hu ↦ ?_
    obtain ⟨u', hu'⟩ := (exists_reencode_listText hs).1 ⟨u, (hdecode u).1 hu⟩ e he
    exact hne u' hu'

theorem reencode_elementwise_mixed :
    let record := " \x7b\"a\":\x7b\"value\":1\x7d\x7d"
    let null := "null\n"
    let written := "\x7b\"a\":\x7b\"value\":\"1\",\"set_timestamp\":0\x7d\x7d"
    let text := listText [record, "7", null]
    let gzip := (Gzip.Member.ofBytes (Bytes.ofText text)).bytes
    (∀ e ∈ [record, null], ∃ t, SpellsText t e.toList) ∧
      (∀ e ∈ [record, "7", null], ∃ t, SpellsText t e.toList) ∧
      reencode .user (listText [record, null]) = .ok (listText [written, "null"]) ∧
      ∃ detail, decode .user (some (Base64.encode gzip)) =
        .error ⟨.malformedCompressedData, detail⟩ := by
  intro record null written text gzip
  have hspells : ∀ e ∈ [record, "7", null], ∃ t, SpellsText t e.toList := by
    have hread : ∀ e ∈ [record, "7", null], (Document.ofText e).node.tree?.isSome ∧
        (Document.ofText e).excess = none := by
      decide +kernel
    intro e he
    obtain ⟨hnode, hexcess⟩ := hread e he
    obtain ⟨t, ht⟩ := Option.isSome_iff_exists.1 hnode
    exact ⟨t, spellsText_iff.2 ⟨ht, hexcess⟩⟩
  have hnull : SpellsText .null null.toList := by
    have hblank : Blanks ['\n'] := by simp [Blanks, Cursor.isSpace]
    have hchars : null.toList = [] ++ (['n', 'u', 'l', 'l'] ++ ['\n']) := by decide
    rw [hchars]
    exact .mk blanks_nil hblank .null
  have hsome : ∀ e ∈ [record, null], ∃ t, SpellsText t e.toList := by
    intro e he
    refine hspells e ?_
    simp only [List.mem_cons, List.not_mem_nil, or_false] at he ⊢
    exact he.imp_right .inr
  obtain ⟨-, hwhole, -, hnulls, -⟩ := reencode_elementwise .user [record, null] hsome
  obtain ⟨-, -, -, -, hpayload⟩ := reencode_elementwise .user [record, "7", null] hspells
  have hrecord : reencode .user (listText [record]) = .ok (listText [written]) :=
    toOption_eq_some.1 (by decide +kernel)
  have hblank : reencode .user (listText [null]) = .ok (listText ["null"]) :=
    hnulls null (by simp) hnull
  have hseven : (reencode .user (listText ["7"])).toOption = none := by decide +kernel
  refine ⟨hsome, hspells, hwhole _ (.cons hrecord (.cons hblank .nil)), ?_⟩
  refine (hpayload gzip (Gzip.decompress_bytes (.ofBytes (Bytes.ofText text)))).2 ⟨"7", by simp, ?_⟩
  intro u hu
  rw [hu] at hseven
  cases hseven

end Clickstream

end ColumnFunctions
