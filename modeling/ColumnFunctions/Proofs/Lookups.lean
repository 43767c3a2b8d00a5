import ColumnFunctions.Proofs.Batch
import ColumnFunctions.Proofs.Secret.Reached

namespace ColumnFunctions

open Secret

def used? (f : Function) : Row → Option String
  | [some _, some name] => if f = .encrypt ∨ f = .decrypt then some name else none
  | _ => none

/-- The rows of a batch that are called for, each with the state that it finds: all of them, or
those up to the first that fails. -/
def evaluated (s : Surroundings) (f : Function) : State → List Row → List (State × Row)
  | _, [] => []
  | state, row :: rows =>
    (state, row) ::
      match (invoke s f row).run.run state with
      | (.ok _, next) => evaluated s f next rows
      | (.error _, _) => []

/-- The name that the store is asked for by a row that finds the state. -/
def asked? (f : Function) (x : State × Row) : Option String :=
  (used? f x.2).bind x.1.cache.missing?

variable {s : Surroundings} {f : Function} {state at_row next : State} {row : Row} {rows : List Row}
  {name : String} {e : Failure}

theorem used?_eq_some : used? f row = some name ↔
    (f = .encrypt ∨ f = .decrypt) ∧ ∃ data, row = [some data, some name] := by
  constructor
  · intro h
    rw [used?.eq_def] at h
    split at h
    · next data secret =>
      split at h
      · next hf =>
        cases h
        exact ⟨hf, data, rfl⟩
      · cases h
    · cases h
  · rintro ⟨hf, data, rfl⟩
    exact if_pos hf

theorem run_invoke_of_unused (h : used? f row = none) :
    ((invoke s f row).run.run state).2 = state := by
  refine run_invoke_of_idle ?_
  by_cases hf : f = .encrypt ∨ f = .decrypt
  · have harity : f.arity = 2 := by
      rcases hf with rfl | rfl <;> rfl
    match row with
    | [none, _] => exact .inr (.inr (.inl rfl))
    | [some _, none] => exact .inr (.inr (.inr rfl))
    | [some data, some name] =>
      rw [used?_eq_some.2 ⟨hf, data, rfl⟩] at h
      cases h
    | [] | [_] | _ :: _ :: _ :: _ => exact .inr (.inl (by simp [harity]))
  · exact .inl (not_or.1 hf)

/-- A call looks up the key that its row uses. -/
theorem cache_invoke (s : Surroundings) (f : Function) (row : Row) (state : State) :
    ((invoke s f row).run.run state).2.cache =
      (Cache.getEach s.store (used? f row).toList state.cache).2 := by
  cases hused : used? f row with
  | none =>
    rw [run_invoke_of_unused hused]
    rfl
  | some name =>
    obtain ⟨hf, data, rfl⟩ := used?_eq_some.1 hused
    rcases hf with rfl | rfl
    · exact cache_encrypt s name data state
    · exact cache_decrypt s name data state

theorem requests_invoke (s : Surroundings) (f : Function) (row : Row) (state : State) :
    ((invoke s f row).run.run state).2.cache.requests =
      state.cache.requests ++ (asked? f (state, row)).toList := by
  rw [cache_invoke, asked?]
  cases used? f row with
  | none => exact (List.append_nil _).symm
  | some name => exact Cache.requests_get s.store name state.cache

/-- A batch looks up the keys that its rows use, in their order. -/
theorem cache_invokeBatch (s : Surroundings) (f : Function) (rows : List Row) (state : State) :
    ((invokeBatch s f rows).run.run state).2.cache =
      (Cache.getEach s.store ((evaluated s f state rows).filterMap fun x ↦ used? f x.2)
        state.cache).2 := by
  rw [List.filterMap_eq_flatMap_toList]
  induction rows generalizing state with
  | nil => rfl
  | cons row rows ih =>
    have hcache := cache_invoke s f row state
    rw [evaluated, List.flatMap_cons, Cache.getEach_append, ← hcache]
    rcases hrow : (invoke s f row).run.run state with ⟨_ | value, between⟩
    · rw [run_invokeBatch_cons_of_error hrow]
      rfl
    · rw [run_invokeBatch_cons_of_ok hrow]
      exact ih between

/-- A batch asks the store for the keys that its rows use and find missing, in their order. -/
theorem requests_invokeBatch (s : Surroundings) (f : Function) (rows : List Row) (state : State) :
    ((invokeBatch s f rows).run.run state).2.cache.requests =
      state.cache.requests ++ (evaluated s f state rows).filterMap (asked? f) := by
  rw [List.filterMap_eq_flatMap_toList]
  induction rows generalizing state with
  | nil => exact (List.append_nil _).symm
  | cons row rows ih =>
    have hrequests := requests_invoke s f row state
    rw [evaluated, List.flatMap_cons, ← List.append_assoc, ← hrequests]
    rcases hrow : (invoke s f row).run.run state with ⟨_ | value, between⟩
    · rw [run_invokeBatch_cons_of_error hrow]
      exact (List.append_nil _).symm
    · rw [run_invokeBatch_cons_of_ok hrow]
      exact ih between

theorem cache_invokeBatch_of_keyless (hf : ¬ (f = .encrypt ∨ f = .decrypt)) :
    ((invokeBatch s f rows).run.run state).2.cache = state.cache := by
  have hnone : (evaluated s f state rows).filterMap (fun x ↦ used? f x.2) = [] := by
    rw [List.filterMap_eq_nil_iff]
    intro x _
    rw [Option.eq_none_iff_forall_ne_some]
    exact fun name hused ↦ hf (used?_eq_some.1 hused).1
  rw [cache_invokeBatch, hnone]
  rfl

/-- A row is called for if the calls for all rows before it succeed, and finds what they leave. -/
theorem getElem?_evaluated {i : ℕ} : (evaluated s f state rows)[i]? = some (at_row, row) ↔
    rows[i]? = some row ∧ ∃ values, Calls s f state (rows.take i) values at_row := by
  induction rows generalizing state i with
  | nil => simp [evaluated]
  | cons first rows ih =>
    rw [evaluated]
    cases i with
    | zero =>
      rw [List.getElem?_cons_zero, List.getElem?_cons_zero, List.take_zero]
      constructor
      · intro h
        cases h
        exact ⟨rfl, [], .nil _⟩
      · rintro ⟨h, values, hcalls⟩
        cases h
        cases hcalls
        rfl
    | succ i =>
      rw [List.getElem?_cons_succ, List.getElem?_cons_succ, List.take_succ_cons]
      constructor
      · intro h
        rcases hfirst : (invoke s f first).run.run state with ⟨_ | value, between⟩
        · rw [hfirst] at h
          cases h
        · rw [hfirst] at h
          obtain ⟨hrow, values, hcalls⟩ := ih.1 h
          exact ⟨hrow, value :: values, .cons hfirst hcalls⟩
      · rintro ⟨hrow, _, hcalls⟩
        cases hcalls with
        | cons hfirst hcalls =>
          rw [hfirst]
          exact ih.2 ⟨hrow, _, hcalls⟩

theorem reached_of_calls {values : List (Option String)} (hs : Calls s f state rows values next)
    (h : Cache.Reached s.store state.cache) : Cache.Reached s.store next.cache := by
  have hcache := cache_invokeBatch s f rows state
  rw [run_invokeBatch_eq_ok.2 hs] at hcache
  rw [hcache]
  exact h.getEach _

/-- The first row that fails is the last one that is called for, and the batch fails as it does. -/
theorem run_invokeBatch_of_mem_evaluated (hx : (at_row, row) ∈ evaluated s f state rows)
    (h : (invoke s f row).run.run at_row = (.error e, next)) :
    (invokeBatch s f rows).run.run state = (.error e, next) := by
  obtain ⟨i, hi⟩ := List.mem_iff_getElem?.1 hx
  obtain ⟨hrow, values, hcalls⟩ := getElem?_evaluated.1 hi
  obtain ⟨hlt, rfl⟩ := List.getElem?_eq_some_iff.1 hrow
  rw [← List.take_append_drop i rows, List.drop_eq_getElem_cons hlt]
  exact hcalls.run_of_error h _

/-- A row whose key the store does not have fails, and asks the store even so. -/
theorem run_invoke_of_unavailable {failure : Secret.Failure} (hused : used? f row = some name)
    (hkey : state.cache.key? name = none)
    (hr : keyOfReply name (s.store name (state.cache.asked name)) = .error failure) :
    asked? f (state, row) = some name ∧
      ∃ next, (invoke s f row).run.run state = (.error failure.toFailure, next) := by
  refine ⟨?_, ?_⟩
  · rw [asked?, hused, Option.bind_some, Cache.missing?, hkey]
    rfl
  obtain ⟨hf, data, rfl⟩ := used?_eq_some.1 hused
  have hget := congrArg Prod.fst (Cache.get_of_error hkey hr)
  rcases hf with rfl | rfl
  · exact ⟨_, run_encrypt_of_error hget data⟩
  · exact ⟨_, run_decrypt_of_error hget data⟩

end ColumnFunctions
