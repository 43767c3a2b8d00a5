import ColumnFunctions.Attempt
import ColumnFunctions.Proofs.Json.Entries
import ColumnFunctions.Proofs.Text.Integer
import ColumnFunctions.Settings
import Mathlib.Data.List.Nodup

namespace ColumnFunctions.Settings

def yesWords : List String := ["true", "on", "yes"]

def noWords : List String := ["false", "off", "no"]

/-- The numbers that a text stands for. In a word capital letters are as good as small ones. -/
inductive Denotes (s : String) : ℕ → Prop
  | digits {n : ℕ} (h : Text.Unsigned s.toList n) : Denotes s n
  | yes (h : s.toLower ∈ yesWords) : Denotes s 1
  | no (h : s.toLower ∈ noWords) : Denotes s 0

section Number

variable {s : String} {n m : ℕ}

theorem toLower_of_isDigit {c : Char} (h : c.isDigit) : c.toLower = c := by
  have hrange : 48 ≤ c.val.toNat ∧ c.val.toNat ≤ 57 := Char.isDigit_iff_toNat.1 h
  refine dif_neg ?_
  rw [ge_iff_le, UInt32.le_iff_toNat_le, UInt32.le_iff_toNat_le]
  rintro ⟨hcapital, -⟩
  exact absurd (hcapital.trans hrange.2) (by decide)

theorem not_isLower {c : Char} (h : c.isDigit ∨ c = '+' ∨ c = '-') : ¬ c.toLower.isLower := by
  rcases h with h | rfl | rfl
  · have hrange : 48 ≤ c.val.toNat ∧ c.val.toNat ≤ 57 := Char.isDigit_iff_toNat.1 h
    rw [toLower_of_isDigit h]
    intro hlower
    have hsmall : 'a'.val ≤ c.val := of_decide_eq_true (Bool.and_eq_true_iff.1 hlower).1
    rw [UInt32.le_iff_toNat_le] at hsmall
    exact absurd (hsmall.trans hrange.2) (by decide)
  · decide
  · decide

theorem toLower_eq {s t : String} (h : s.toList.map Char.toLower = t.toList) : s.toLower = t :=
  String.toList_inj.1 (String.toList_map.trans h)

theorem not_word (h : Text.Unsigned s.toList n) : s.toLower ∉ yesWords ++ noWords := by
  intro hw
  have hletters : ∀ w ∈ yesWords ++ noWords, w.toList.all Char.isLower := by decide
  obtain ⟨c, hc⟩ := List.exists_mem_of_ne_nil _ h.signed.ne_nil
  have hlower : c.toLower ∈ (s.map Char.toLower).toList := by
    rw [String.toList_map]
    exact List.mem_map_of_mem hc
  exact not_isLower (h.signed.char c hc) (List.all_eq_true.1 (hletters _ hw) _ hlower)

theorem not_no {w : String} (h : w ∈ yesWords) : w ∉ noWords := by
  revert w
  decide

theorem numberOfText?_eq (s : String) :
    numberOfText? s =
      if s.toLower ∈ yesWords then some 1
      else if s.toLower ∈ noWords then some 0
      else (Text.natOfSigned? s.toList).filter (· < UInt64.size) := by
  rw [numberOfText?.eq_def]
  split <;> simp_all [yesWords, noWords]

theorem denotes_iff_of_yes (h : s.toLower ∈ yesWords) : Denotes s n ↔ n = 1 := by
  constructor
  · intro hd
    cases hd with
    | digits hn => exact absurd (List.mem_append_left _ h) (not_word hn)
    | yes => rfl
    | no hno => exact absurd hno (not_no h)
  · rintro rfl
    exact .yes h

theorem denotes_iff_of_no (h : s.toLower ∈ noWords) : Denotes s n ↔ n = 0 := by
  constructor
  · intro hd
    cases hd with
    | digits hn => exact absurd (List.mem_append_right _ h) (not_word hn)
    | yes hyes => exact absurd h (not_no hyes)
    | no => rfl
  · rintro rfl
    exact .no h

theorem denotes_iff_of_not_word (hy : s.toLower ∉ yesWords) (hn : s.toLower ∉ noWords) :
    Denotes s n ↔ Text.natOfSigned? s.toList = some n := by
  rw [Text.natOfSigned?_eq_some]
  constructor
  · intro hd
    cases hd with
    | digits h => exact h
    | yes h => exact absurd h hy
    | no h => exact absurd h hn
  · exact .digits

theorem Denotes.unique (h : Denotes s n) (h' : Denotes s m) : n = m := by
  by_cases hy : s.toLower ∈ yesWords
  · rw [(denotes_iff_of_yes hy).1 h, (denotes_iff_of_yes hy).1 h']
  by_cases hn : s.toLower ∈ noWords
  · rw [(denotes_iff_of_no hn).1 h, (denotes_iff_of_no hn).1 h']
  rw [denotes_iff_of_not_word hy hn] at h h'
  exact Option.some.inj (h.symm.trans h')

theorem numberOfText?_eq_some : numberOfText? s = some n ↔ Denotes s n ∧ n < UInt64.size := by
  rw [numberOfText?_eq]
  split
  · next hy =>
    rw [denotes_iff_of_yes hy, Option.some.injEq, eq_comm, iff_self_and]
    rintro rfl
    decide
  split
  · next hn =>
    rw [denotes_iff_of_no hn, Option.some.injEq, eq_comm, iff_self_and]
    rintro rfl
    decide
  · next hy hn =>
    rw [denotes_iff_of_not_word hy hn, Option.filter_eq_some_iff, decide_eq_true_iff]

theorem readText_eq_ok {key t : String} : readText key (.text s) = .ok t ↔ s = t := by
  rw [readText, Except.ok.injEq]

def UpTo (greatest : ℕ) (text : String) (n : ℕ) : Prop := Denotes text n ∧ n ≤ greatest

theorem readNumber_eq_ok {key : String} :
    readNumber key (.text s) = .ok n ↔ UpTo (2 ^ 64 - 1) s n := by
  have hsize : n < UInt64.size ↔ n ≤ 2 ^ 64 - 1 := Nat.lt_succ_iff
  rw [UpTo, ← hsize, ← numberOfText?_eq_some, readNumber]
  cases numberOfText? s <;> simp

theorem readPort_eq_ok {key : String} : readPort key (.text s) = .ok n ↔ UpTo 65535 s n := by
  have hsize : n < UInt16.size ↔ n ≤ 65535 := Nat.lt_succ_iff
  rw [readPort, bind_eq_ok]
  constructor
  · rintro ⟨m, hm, h⟩
    split at h
    · next hport =>
      cases h
      exact ⟨(readNumber_eq_ok.1 hm).1, hsize.1 hport⟩
    · cases h
  · rintro ⟨hd, hn⟩
    have hwide : n ≤ 2 ^ 64 - 1 := hn.trans (by decide)
    exact ⟨n, readNumber_eq_ok.2 ⟨hd, hwide⟩, if_pos (hsize.2 hn)⟩

end Number

section Environment

def keys : List String :=
  ["listen_port", "log_level", "otel_exporter_otlp_endpoint", "secrets_manager_endpoint",
    "max_batch_rows"]

/-- An environment of variables that have a meaning, each of them at most once. -/
structure Plain (environment : List (String × String)) : Prop where
  known : ∀ v ∈ environment, v.1.toLower ∈ keys
  once : (environment.map fun v ↦ v.1.toLower).Nodup

def Sets (environment : List (String × String)) (key text : String) : Prop :=
  ∃ name, name.toLower = key ∧ (name, text) ∈ environment

variable {α : Type} {environment : List (String × String)} {key text text' : String}

theorem Sets.mem_names (h : Sets environment key text) :
    key ∈ environment.map fun v ↦ v.1.toLower := by
  obtain ⟨name, rfl, hv⟩ := h
  exact List.mem_map.2 ⟨(name, text), hv, rfl⟩

theorem setting_of_known {name : String} (h : name.toLower ∈ keys) (text : String) :
    Variable.setting name text = (name.toLower, .text text) := by
  have hchars : ∀ key ∈ keys, key.toList.all Variable.isNameChar := by decide
  have hrest : name.toLower.toList.dropWhile Variable.isNameChar = [] :=
    List.dropWhile_eq_nil_iff.2 (List.all_eq_true.1 (hchars _ h))
  simp only [Variable.setting, hrest, Variable.steps?, String.ofList_toList]

namespace Plain

theorem settings_eq (h : Plain environment) :
    (environment.map fun (name, value) ↦ Variable.setting name value) =
      environment.map fun v ↦ (v.1.toLower, .text v.2) :=
  List.map_congr_left fun v hv ↦ setting_of_known (h.known v hv) v.2

theorem find?_eq_some (h : Plain environment) {x : Setting} :
    find? (environment.map fun (name, value) ↦ Variable.setting name value) key = some x ↔
      ∃ text, x = .text text ∧ Sets environment key text := by
  -- The last variable of a key counts, and there is no more than one.
  let settings := environment.map fun v ↦ (v.1.toLower, Setting.text v.2)
  have hnodup : (settings.reverse.map Prod.fst).Nodup := by
    rw [List.map_reverse, List.nodup_reverse, List.map_map]
    exact h.once
  rw [h.settings_eq, find?, Json.lookup_eq_some_iff (List.nodup_iff_count_le_one.1 hnodup key),
    List.mem_reverse, List.mem_map]
  constructor
  · rintro ⟨⟨name, text⟩, hv, heq⟩
    cases heq
    exact ⟨text, rfl, name, rfl, hv⟩
  · rintro ⟨text, rfl, name, rfl, hv⟩
    exact ⟨(name, text), hv, rfl⟩

theorem unique (h : Plain environment) (ht : Sets environment key text)
    (ht' : Sets environment key text') : text = text' := by
  have hfind := h.find?_eq_some.2 ⟨text, rfl, ht⟩
  rw [h.find?_eq_some.2 ⟨text', rfl, ht'⟩] at hfind
  exact (Setting.text.inj (Option.some.inj hfind)).symm

end Plain

structure Reads (environment : List (String × String)) (key : String)
    (Meaning : String → α → Prop) (r : Option α) : Prop where
  set : ∀ text, Sets environment key text → ∃ a, r = some a ∧ Meaning text a
  unset : (∀ text, ¬ Sets environment key text) → r = none

variable {Meaning : String → α → Prop} {r : Option α}

theorem Reads.set_or_unset (h : Reads environment key Meaning r) :
    (∃ text a, Sets environment key text ∧ r = some a ∧ Meaning text a) ∨
      (∀ text, ¬ Sets environment key text) ∧ r = none := by
  by_cases hs : ∃ text, Sets environment key text
  · obtain ⟨text, ht⟩ := hs
    obtain ⟨a, hr, ha⟩ := h.set text ht
    exact .inl ⟨text, a, ht, hr, ha⟩
  · rw [not_exists] at hs
    exact .inr ⟨hs, h.unset hs⟩

theorem reads_of_unset (hu : ∀ text, ¬ Sets environment key text) :
    Reads environment key Meaning none :=
  ⟨fun text ht ↦ absurd ht (hu text), fun _ ↦ rfl⟩

theorem Plain.reads_of_set (h : Plain environment) (ht : Sets environment key text) {a : α}
    (ha : Meaning text a) : Reads environment key Meaning (some a) :=
  ⟨fun _ ht' ↦ ⟨a, rfl, h.unique ht ht' ▸ ha⟩, fun hu ↦ absurd ht (hu text)⟩

theorem Plain.exists_reads (h : Plain environment)
    (hm : ∀ text, Sets environment key text → ∃ a, Meaning text a) :
    ∃ r, Reads environment key Meaning r := by
  by_cases hs : ∃ text, Sets environment key text
  · obtain ⟨text, ht⟩ := hs
    obtain ⟨a, ha⟩ := hm text ht
    exact ⟨some a, h.reads_of_set ht ha⟩
  · exact ⟨none, reads_of_unset (not_exists.1 hs)⟩

theorem Plain.readKey_eq_ok (h : Plain environment) {read : String → Setting → Except Failure α}
    (hread : ∀ text a, read key (.text text) = .ok a ↔ Meaning text a) :
    readKey (environment.map fun (name, value) ↦ Variable.setting name value) key read = .ok r ↔
      Reads environment key Meaning r := by
  rw [readKey]
  split
  · next hfind =>
    have hunset : ∀ text, ¬ Sets environment key text := by
      intro text ht
      rw [h.find?_eq_some.2 ⟨text, rfl, ht⟩] at hfind
      cases hfind
    constructor
    · intro hr
      cases hr
      exact reads_of_unset hunset
    · intro hr
      rw [hr.unset hunset]
  · next x hfind =>
    obtain ⟨text, rfl, ht⟩ := h.find?_eq_some.1 hfind
    constructor
    · intro hr
      cases ha : read key (.text text) with
      | error e =>
        rw [ha] at hr
        cases hr
      | ok a =>
        rw [ha] at hr
        cases hr
        exact h.reads_of_set ht ((hread text a).1 ha)
    · intro hr
      obtain ⟨a, rfl, ha⟩ := hr.set text ht
      rw [(hread text a).2 ha]
      rfl

end Environment

section Accepted

def InRange (environment : List (String × String)) (key : String) (greatest : ℕ) : Prop :=
  ∀ text, Sets environment key text → ∃ n, Denotes text n ∧ 1 ≤ n ∧ n ≤ greatest

structure Valid (environment : List (String × String)) : Prop where
  port : InRange environment "listen_port" 65535
  rows : InRange environment "max_batch_rows" (2 ^ 64 - 1)
  level : ∀ text, Sets environment "log_level" text → ∃ c ∈ text.toList, ¬ Text.isBlank c

structure Numbered (environment : List (String × String)) (key : String) (default n : ℕ) :
    Prop where
  set : ∀ text, Sets environment key text → ∀ m, Denotes text m ↔ m = n
  unset : (∀ text, ¬ Sets environment key text) → n = default

structure Worded (environment : List (String × String)) (key default s : String) : Prop where
  set : ∀ text, Sets environment key text → s = text
  unset : (∀ text, ¬ Sets environment key text) → s = default

/-- The text that a key is set to, without the blanks around it. There is none just where the key is
not set or is set to blanks only. -/
structure Located (environment : List (String × String)) (key : String)
    (endpoint : Option String) : Prop where
  some : ∀ t, endpoint = some t ↔
    ∃ text, Sets environment key text ∧ t ≠ "" ∧ Text.Trimmed text.toList t.toList
  none : endpoint = none ↔ ∀ text, Sets environment key text → Text.AllBlank text.toList

structure Given (environment : List (String × String)) (s : Settings) : Prop where
  port : Numbered environment "listen_port" 8080 s.listenPort
  level : Worded environment "log_level" "info" s.logLevel
  trace : Located environment "otel_exporter_otlp_endpoint" s.traceEndpoint
  secrets : Located environment "secrets_manager_endpoint" s.secretsEndpoint
  rows : Numbered environment "max_batch_rows" 10000 s.maxBatchRows

variable {environment : List (String × String)} {key : String}

namespace Reads

variable {greatest default : ℕ} {r : Option ℕ} {s : Option String}

theorem numbered (h : Reads environment key (UpTo greatest) r) :
    Numbered environment key default (r.getD default) where
  set text ht m := by
    obtain ⟨n, rfl, hn⟩ := h.set text ht
    constructor
    · intro hm
      exact hm.unique hn.1
    · rintro rfl
      exact hn.1
  unset hu := by
    rw [h.unset hu]
    rfl

theorem inRange (h : Reads environment key (UpTo greatest) r) (hpos : r.getD default ≠ 0) :
    InRange environment key greatest := by
  intro text ht
  obtain ⟨n, rfl, hn⟩ := h.set text ht
  exact ⟨n, hn.1, Nat.one_le_iff_ne_zero.2 hpos, hn.2⟩

theorem getD_ne_zero (h : Reads environment key (UpTo greatest) r) (hd : default ≠ 0)
    (hr : InRange environment key greatest) : r.getD default ≠ 0 := by
  rcases h.set_or_unset with ⟨text, n, ht, rfl, hn⟩ | ⟨-, rfl⟩
  · obtain ⟨m, hm, hpos, -⟩ := hr text ht
    rw [hm.unique hn.1] at hpos
    exact Nat.one_le_iff_ne_zero.1 hpos
  · exact hd

theorem worded (h : Reads environment key Eq s) (default : String) :
    Worded environment key default (s.getD default) where
  set text ht := by
    obtain ⟨_, rfl, rfl⟩ := h.set text ht
    rfl
  unset hu := by
    rw [h.unset hu]
    rfl

theorem located (h : Reads environment key Eq s) :
    Located environment key (s.bind Text.nonBlank?) := by
  rcases h.set_or_unset with ⟨text, _, ht, rfl, rfl⟩ | ⟨hu, rfl⟩
  · have honly : ∀ text', Sets environment key text' → text = text' := by
      intro text' ht'
      obtain ⟨_, hsome, rfl⟩ := h.set text' ht'
      exact Option.some.inj hsome
    refine ⟨fun t ↦ ?_, ?_⟩
    · rw [Option.bind_some, Text.nonBlank?_eq_some]
      exact ⟨fun h' ↦ ⟨text, ht, h'⟩, fun ⟨text', ht', h'⟩ ↦ honly text' ht' ▸ h'⟩
    · rw [Option.bind_some, Text.nonBlank?_eq_none]
      exact ⟨fun h' text' ht' ↦ honly text' ht' ▸ h', fun h' ↦ h' text ht⟩
  · refine ⟨fun t ↦ iff_of_false (nomatch ·) ?_, iff_of_true rfl ?_⟩
    · rintro ⟨text, ht, -⟩
      exact hu text ht
    · intro text ht
      exact absurd ht (hu text)

end Reads

theorem check_eq_ok {s : Settings} :
    check s = .ok () ↔
      s.listenPort ≠ 0 ∧ s.maxBatchRows ≠ 0 ∧ ∃ c ∈ s.logLevel.toList, ¬ Text.isBlank c := by
  have hblank : (Text.nonBlank? s.logLevel).isNone ↔
      ¬ ∃ c ∈ s.logLevel.toList, ¬ Text.isBlank c := by
    rw [Option.isNone_iff_eq_none, Text.nonBlank?_eq_none]
    simp [Text.AllBlank]
  rw [check]
  split
  · next h => exact iff_of_false (nomatch ·) fun h' ↦ h'.1 h
  split
  · next h => exact iff_of_false (nomatch ·) fun h' ↦ h'.2.1 h
  split
  · next h => exact iff_of_false (nomatch ·) fun h' ↦ hblank.1 h h'.2.2
  · next hp hr hl => exact iff_of_true rfl ⟨hp, hr, not_not.1 (hblank.not.1 hl)⟩

namespace Plain

theorem exists_reads_number (h : Plain environment) {greatest : ℕ}
    (hr : InRange environment key greatest) : ∃ r, Reads environment key (UpTo greatest) r := by
  refine h.exists_reads fun text ht ↦ ?_
  obtain ⟨n, hn, -, hgreatest⟩ := hr text ht
  exact ⟨n, hn, hgreatest⟩

theorem exists_reads_text (h : Plain environment) : ∃ s, Reads environment key Eq s :=
  h.exists_reads fun text _ ↦ ⟨text, rfl⟩

end Plain

structure Made (environment : List (String × String)) (port : Option ℕ)
    (level trace secrets : Option String) (rows : Option ℕ) : Prop where
  port : Reads environment "listen_port" (UpTo 65535) port
  level : Reads environment "log_level" Eq level
  trace : Reads environment "otel_exporter_otlp_endpoint" Eq trace
  secrets : Reads environment "secrets_manager_endpoint" Eq secrets
  rows : Reads environment "max_batch_rows" (UpTo (2 ^ 64 - 1)) rows

theorem Plain.ofEnvironment_eq_ok (h : Plain environment) {s : Settings} :
    ofEnvironment environment = .ok s ↔
      ∃ port level trace secrets rows, Made environment port level trace secrets rows ∧
        s = ⟨port.getD 8080, level.getD "info", trace.bind Text.nonBlank?,
          secrets.bind Text.nonBlank?, rows.getD 10000⟩ ∧ check s = .ok () := by
  simp only [ofEnvironment, ofSettings, bind_eq_ok, h.readKey_eq_ok fun _ _ ↦ readPort_eq_ok,
    h.readKey_eq_ok fun _ _ ↦ readText_eq_ok, h.readKey_eq_ok fun _ _ ↦ readNumber_eq_ok]
  constructor
  · rintro ⟨_, ⟨port, hport, level, hlevel, trace, htrace, secrets, hsecrets, rows, hrows, ⟨⟩⟩,
      ⟨⟩, hcheck, ⟨⟩⟩
    exact ⟨port, level, trace, secrets, rows, ⟨hport, hlevel, htrace, hsecrets, hrows⟩, rfl, hcheck⟩
  · rintro ⟨port, level, trace, secrets, rows, h', rfl, hcheck⟩
    exact ⟨_, ⟨port, h'.port, level, h'.level, trace, h'.trace, secrets, h'.secrets, rows, h'.rows,
      rfl⟩, (), hcheck, rfl⟩

theorem accepted_iff_valid (h : Plain environment) :
    ((∃ s, ofEnvironment environment = .ok s) ↔ Valid environment) ∧
      ∀ s, ofEnvironment environment = .ok s → Given environment s := by
  refine ⟨⟨?_, ?_⟩, ?_⟩
  · rintro ⟨s, hs⟩
    obtain ⟨port, level, trace, secrets, rows, hmade, rfl, hcheck⟩ := h.ofEnvironment_eq_ok.1 hs
    obtain ⟨hport, hrows, hlevel⟩ := check_eq_ok.1 hcheck
    refine ⟨hmade.port.inRange hport, hmade.rows.inRange hrows, fun text ht ↦ ?_⟩
    rwa [(hmade.level.worded "info").set text ht] at hlevel
  · intro hv
    obtain ⟨port, hport⟩ := h.exists_reads_number hv.port
    obtain ⟨level, hlevel⟩ := h.exists_reads_text
    obtain ⟨trace, htrace⟩ := h.exists_reads_text
    obtain ⟨secrets, hsecrets⟩ := h.exists_reads_text
    obtain ⟨rows, hrows⟩ := h.exists_reads_number hv.rows
    have hvisible : ∃ c ∈ (level.getD "info").toList, ¬ Text.isBlank c := by
      rcases hlevel.set_or_unset with ⟨text, _, ht, rfl, rfl⟩ | ⟨-, rfl⟩
      · exact hv.level text ht
      · exact ⟨'i', by decide, by decide⟩
    exact ⟨_, h.ofEnvironment_eq_ok.2 ⟨port, level, trace, secrets, rows,
      ⟨hport, hlevel, htrace, hsecrets, hrows⟩, rfl, check_eq_ok.2
        ⟨hport.getD_ne_zero (by decide) hv.port, hrows.getD_ne_zero (by decide) hv.rows,
          hvisible⟩⟩⟩
  · intro s hs
    obtain ⟨port, level, trace, secrets, rows, hmade, rfl, -⟩ := h.ofEnvironment_eq_ok.1 hs
    exact ⟨hmade.port.numbered, hmade.level.worded "info", hmade.trace.located,
      hmade.secrets.located, hmade.rows.numbered⟩

theorem accepted_iff_valid_capitals :
    ∃ s, ofEnvironment [("Listen_Port", "+00443"), ("max_batch_rows", "yEs"),
        ("SECRETS_MANAGER_ENDPOINT", "\thttp://x \n")] = .ok s ∧
      s.listenPort = 443 ∧ s.maxBatchRows = 1 ∧ s.logLevel = "info" ∧ s.traceEndpoint = none ∧
      s.secretsEndpoint = some "http://x" := by
  let environment := [("Listen_Port", "+00443"), ("max_batch_rows", "yEs"),
    ("SECRETS_MANAGER_ENDPOINT", "\thttp://x \n")]
  let names := ["listen_port", "max_batch_rows", "secrets_manager_endpoint"]
  have hportName : "Listen_Port".toLower = "listen_port" := toLower_eq (by decide)
  have hrowsName : "max_batch_rows".toLower = "max_batch_rows" := toLower_eq (by decide)
  have hsecretsName : "SECRETS_MANAGER_ENDPOINT".toLower = "secrets_manager_endpoint" :=
    toLower_eq (by decide)
  have hnames : (environment.map fun v ↦ v.1.toLower) = names := by
    simp only [environment, names, List.map_cons, List.map_nil, hportName, hrowsName, hsecretsName]
  have hset {key text : String} (h : Sets environment key text) : key ∈ names :=
    hnames ▸ h.mem_names
  have hplain : Plain environment := by
    refine ⟨fun v hv ↦ ?_, hnames ▸ by decide⟩
    have hkeys : names ⊆ keys := by decide
    exact hkeys (hset ⟨v.1, rfl, hv⟩)
  have hport : Sets environment "listen_port" "+00443" := ⟨_, hportName, by decide⟩
  have hrows : Sets environment "max_batch_rows" "yEs" := ⟨_, hrowsName, by decide⟩
  have hsecrets : Sets environment "secrets_manager_endpoint" "\thttp://x \n" :=
    ⟨_, hsecretsName, by decide⟩
  have hplus : Denotes "+00443" 443 := .digits (.plus ⟨by decide, List.all_eq_true.1 (by decide)⟩)
  have hyes : Denotes "yEs" 1 := by
    have hlower : "yEs".toLower = "yes" := toLower_eq (by decide)
    exact .yes (hlower ▸ by decide)
  have htrimmed : Text.Trimmed "\thttp://x \n".toList "http://x".toList := by
    refine ⟨⟨['\t'], [' ', '\n'], by decide, List.all_eq_true.1 (by decide),
      List.all_eq_true.1 (by decide)⟩, ?_, ?_⟩
    · rintro _ ⟨⟩
      decide
    · rintro _ ⟨⟩
      decide
  have hvalid : Valid environment :=
    ⟨fun text ht ↦ hplain.unique hport ht ▸ ⟨443, hplus, by decide, by decide⟩,
      fun text ht ↦ hplain.unique hrows ht ▸ ⟨1, hyes, by decide, by decide⟩,
      fun text ht ↦ absurd (hset ht) (by decide)⟩
  obtain ⟨s, hs⟩ := (accepted_iff_valid hplain).1.2 hvalid
  have hgiven := (accepted_iff_valid hplain).2 s hs
  exact ⟨s, hs, ((hgiven.port.set _ hport 443).1 hplus).symm,
    ((hgiven.rows.set _ hrows 1).1 hyes).symm,
    hgiven.level.unset fun text ht ↦ absurd (hset ht) (by decide),
    hgiven.trace.none.2 fun text ht ↦ absurd (hset ht) (by decide),
    (hgiven.secrets.some _).2 ⟨_, hsecrets, by decide, htrimmed⟩⟩

end Accepted

end ColumnFunctions.Settings
