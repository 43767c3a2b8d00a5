import ColumnFunctions.Proofs.Session

namespace ColumnFunctions

variable {s : Surroundings} {f : Function} {state between next : State}
  {row : Row} {rows : List Row} {value : Option String} {values : List (Option String)}
  {e : Failure}

/-- Calls for rows one after the other, all of which succeed. Each one finds the state that the one
before it has left. -/
inductive Calls (s : Surroundings) (f : Function) :
    State → List Row → List (Option String) → State → Prop
  | nil (state : State) : Calls s f state [] [] state
  | cons {state between next : State} {row : Row} {rows : List Row} {value : Option String}
      {values : List (Option String)} (h : (invoke s f row).run.run state = (.ok value, between))
      (hs : Calls s f between rows values next) :
      Calls s f state (row :: rows) (value :: values) next

theorem run_invokeBatch_cons_of_error (h : (invoke s f row).run.run state = (.error e, next))
    (rows : List Row) : (invokeBatch s f (row :: rows)).run.run state = (.error e, next) := by
  rw [invokeBatch, List.mapM_cons, run_bind, h]

theorem run_invokeBatch_eq_ok :
    (invokeBatch s f rows).run.run state = (.ok values, next) ↔
      Calls s f state rows values next := by
  constructor
  · intro h
    induction rows generalizing state values with
    | nil =>
      cases h
      exact .nil _
    | cons row rows ih =>
      rw [invokeBatch, List.mapM_cons] at h
      obtain ⟨value, between, hrow, h⟩ := run_bind_eq_ok.1 h
      obtain ⟨more, last, hmore, h⟩ := run_bind_eq_ok.1 h
      cases h
      exact .cons hrow (ih hmore)
  · intro h
    induction h with
    | nil => rfl
    | cons hrow _ ih =>
      rw [run_invokeBatch_cons_of_ok hrow, ih]
      rfl

/-- A batch ends where its first row fails, with what that row leaves. -/
theorem Calls.run_of_error (hs : Calls s f state rows values between)
    (h : (invoke s f row).run.run between = (.error e, next)) (after : List Row) :
    (invokeBatch s f (rows ++ row :: after)).run.run state = (.error e, next) := by
  rw [run_invokeBatch_append (run_invokeBatch_eq_ok.2 hs), run_invokeBatch_cons_of_error h]
  rfl

theorem run_invokeBatch_eq_error :
    (invokeBatch s f rows).run.run state = (.error e, next) ↔
      ∃ before row after values between, rows = before ++ row :: after ∧
        Calls s f state before values between ∧
        (invoke s f row).run.run between = (.error e, next) := by
  constructor
  · intro h
    induction rows generalizing state with
    | nil => cases h
    | cons row rows ih =>
      rcases hrow : (invoke s f row).run.run state with ⟨_ | value, between⟩
      · rw [run_invokeBatch_cons_of_error hrow] at h
        cases h
        exact ⟨[], row, rows, [], state, rfl, .nil state, hrow⟩
      · rw [run_invokeBatch_cons_of_ok hrow] at h
        rcases hrows : (invokeBatch s f rows).run.run between with ⟨_ | more, last⟩
        · rw [hrows] at h
          cases h
          obtain ⟨before, failed, after, values, at_failed, rfl, hs, hfailed⟩ := ih hrows
          exact ⟨row :: before, failed, after, value :: values, at_failed, rfl, .cons hrow hs,
            hfailed⟩
        · rw [hrows] at h
          cases h
  · rintro ⟨before, row, after, values, between, rfl, hs, h⟩
    exact hs.run_of_error h after

theorem Calls.length_eq (h : Calls s f state rows values next) : values.length = rows.length :=
  length_invokeBatch (run_invokeBatch_eq_ok.2 h)

/-- Each value is that of its own row, on the state that the rows before it have left. -/
theorem Calls.getElem? (h : Calls s f state rows values next) {i : ℕ} (hi : rows[i]? = some row) :
    ∃ value between after, values[i]? = some value ∧
      Calls s f state (rows.take i) (values.take i) between ∧
      (invoke s f row).run.run between = (.ok value, after) := by
  induction h generalizing i with
  | nil => cases hi
  | @cons state between next first rows value values hrow hs ih =>
    cases i with
    | zero =>
      cases hi
      exact ⟨value, state, between, rfl, .nil state, hrow⟩
    | succ i =>
      obtain ⟨value', before, after, hvalue, hcalls, hcall⟩ := ih hi
      exact ⟨value', before, after, hvalue, .cons hrow hcalls, hcall⟩

/-- A key that is known on the way is known at the end. -/
theorem Calls.key?_of_take (hs : Calls s f state rows values next) {i : ℕ}
    {known : List (Option String)} (ht : Calls s f state (rows.take i) known between)
    {name : String} {key : Key} (h : between.cache.key? name = some key) :
    next.cache.key? name = some key := by
  have hrun := run_invokeBatch_eq_ok.2 hs
  rw [← List.take_append_drop i rows, run_invokeBatch_append (run_invokeBatch_eq_ok.2 ht)] at hrun
  have hnext : ((invokeBatch s f (rows.drop i)).run.run between).2 = next := congrArg Prod.snd hrun
  rw [← hnext]
  exact keeps_invokeBatch s f (rows.drop i) between name key h

/-- A batch in two parts: the second is reached if the first succeeds. -/
theorem run_invokeBatch_append_eq (rows₁ rows₂ : List Row) :
    (invokeBatch s f (rows₁ ++ rows₂)).run.run state =
      match (invokeBatch s f rows₁).run.run state with
      | (.ok values, between) =>
        ((invokeBatch s f rows₂).run.run between).map (Except.map (values ++ ·)) id
      | (.error e, between) => (.error e, between) := by
  split
  · next h => exact run_invokeBatch_append h rows₂
  · next h =>
    obtain ⟨before, row, after, values, at_row, rfl, hs, hrow⟩ := run_invokeBatch_eq_error.1 h
    rw [List.append_assoc, List.cons_append]
    exact hs.run_of_error hrow (after ++ rows₂)

theorem run_invoke_of_length (h : row.length ≠ f.arity) :
    (invoke s f row).run.run state = (.error (f.wrongArity row.length), state) := by
  rw [invoke, if_pos h]
  rfl

/-- Null data is answered with null, whatever else is in the row. -/
theorem run_invoke_of_null (h : row.length = f.arity) (hd : row.head? = some none) :
    (invoke s f row).run.run state = (.ok none, state) := by
  rw [invoke, if_neg (not_not_intro h), hd]
  cases f <;> rfl

theorem run_invoke_of_no_secret (hf : f = .encrypt ∨ f = .decrypt) (data : String) :
    (invoke s f [some data, none]).run.run state = (.error f.noSecret, state) := by
  rcases hf with rfl | rfl <;> rfl

theorem run_liftExcept {α : Type} (r : Except Failure α) :
    (liftExcept r : Action α).run.run state = (r, state) := by
  cases r <;> rfl

theorem run_invoke_of_keyless (he : f ≠ .encrypt) (hd : f ≠ .decrypt) :
    ((invoke s f row).run.run state).2 = state := by
  rw [invoke]
  split
  · rfl
  cases f with
  | encrypt => exact absurd rfl he
  | decrypt => exact absurd rfl hd
  | compress => rfl
  | _ => exact congrArg Prod.snd (run_liftExcept _)

/-- A row leaves the state as it is unless it has data and names a secret for a function that takes
one. -/
theorem run_invoke_of_idle (h : f ≠ .encrypt ∧ f ≠ .decrypt ∨ row.length ≠ f.arity ∨
    row[0]? = some none ∨ row[1]? = some none) : ((invoke s f row).run.run state).2 = state := by
  by_cases hk : f ≠ .encrypt ∧ f ≠ .decrypt
  · exact run_invoke_of_keyless hk.1 hk.2
  have hf : f = .encrypt ∨ f = .decrypt := by
    rwa [← not_or, not_not] at hk
  by_cases hlen : row.length ≠ f.arity
  · rw [run_invoke_of_length hlen]
  have harity : f.arity = 2 := by
    rcases hf with rfl | rfl <;> rfl
  rw [not_not] at hlen
  obtain ⟨data, secret, rfl⟩ := List.length_eq_two.1 (hlen.trans harity)
  cases data with
  | none => rw [run_invoke_of_null hlen rfl]
  | some data =>
    obtain rfl : secret = none := by
      rcases h with h | h | h | h
      · exact absurd h hk
      · exact absurd hlen h
      · cases h
      · exact Option.some.inj h
    rw [run_invoke_of_no_secret hf]

/-- A batch is its calls in order. It has the values of all of them, or the failure of the first one
that fails: no row behind that one is looked at, and the keys of the rows before it stay known. Two
batches in a row are one, and rows that need no key leave the state as it is. -/
theorem batch_runs_in_order (s : Surroundings) (f : Function) :
    (∀ rows state values next, (invokeBatch s f rows).run.run state = (.ok values, next) ↔
      Calls s f state rows values next) ∧
    (∀ rows state values next, Calls s f state rows values next →
      values.length = rows.length ∧ ∀ i row, rows[i]? = some row →
        ∃ value between after, values[i]? = some value ∧
          Calls s f state (rows.take i) (values.take i) between ∧
          (invoke s f row).run.run between = (.ok value, after)) ∧
    (∀ rows state e next, (invokeBatch s f rows).run.run state = (.error e, next) ↔
      ∃ before row after values between, rows = before ++ row :: after ∧
        Calls s f state before values between ∧
        (invoke s f row).run.run between = (.error e, next)) ∧
    (∀ before row after state values between e next, Calls s f state before values between →
      (invoke s f row).run.run between = (.error e, next) →
      (invokeBatch s f (before ++ row :: after)).run.run state = (.error e, next) ∧
        ∀ i known at_row name key, Calls s f state (before.take i) known at_row →
          at_row.cache.key? name = some key → next.cache.key? name = some key) ∧
    (∀ rows₁ rows₂ state, (invokeBatch s f (rows₁ ++ rows₂)).run.run state =
      match (invokeBatch s f rows₁).run.run state with
      | (.ok values, between) =>
        ((invokeBatch s f rows₂).run.run between).map (Except.map (values ++ ·)) id
      | (.error e, between) => (.error e, between)) ∧
    (∀ row state, f ≠ .encrypt ∧ f ≠ .decrypt ∨ row.length ≠ f.arity ∨ row[0]? = some none ∨
      row[1]? = some none → ((invoke s f row).run.run state).2 = state) ∧
    ∀ row state, row.length = f.arity → row[0]? = some none →
      (invoke s f row).run.run state = (.ok none, state) := by
  refine ⟨fun _ _ _ _ ↦ run_invokeBatch_eq_ok, ?_, fun _ _ _ _ ↦ run_invokeBatch_eq_error, ?_,
    fun rows₁ rows₂ _ ↦ run_invokeBatch_append_eq rows₁ rows₂, fun _ _ ↦ run_invoke_of_idle, ?_⟩
  · intro rows state values next h
    exact ⟨h.length_eq, fun i row hi ↦ h.getElem? hi⟩
  · intro before row after state values between e next hs h
    refine ⟨hs.run_of_error h after, fun i known at_row name key ht hkey ↦ ?_⟩
    have hkept := keeps_invoke s f row between name key (hs.key?_of_take ht hkey)
    rwa [h] at hkept
  · intro row state hlen hd
    exact run_invoke_of_null hlen (by rwa [List.head?_eq_getElem?])

theorem batch_runs_in_order_stopped :
    let key : Key := ⟨List.replicate 32 0, rfl⟩
    let s : Surroundings :=
      ⟨fun _ _ ↦ .ok (Base64.encode key.val), fun _ ↦ ⟨List.replicate 12 0, rfl⟩⟩
    let before : List Row := [[some "text", some "k"], [none, none]]
    let between : State := ⟨⟨[("k", key)], ["k"]⟩, 1⟩
    (∃ encrypted, Calls s .encrypt {} before [some encrypted, none] between) ∧
      (invoke s .encrypt [some "text", none]).run.run between =
        (.error Function.encrypt.noSecret, between) ∧
      (invokeBatch s .encrypt (before ++ [some "text", none] :: [[some "text", some "l"]])).run.run
        {} = (.error Function.encrypt.noSecret, between) := by
  intro key s before between
  have hlen : (Bytes.ofText "text").length ≤ Gcm.maxText := by decide +kernel
  obtain ⟨b, hb⟩ := Aead.exists_encrypt (s.nonces 0) key.property hlen
  have hkey : Secret.keyOfReply "k" (s.store "k" 0) = .ok key := Secret.keyOfReply_eq_ok.2 rfl
  have hget : Secret.Cache.get s.store "k" {} = (.ok key, ⟨[("k", key)], ["k"]⟩) :=
    Secret.Cache.get_of_ok rfl hkey
  have hfirst : (invoke s .encrypt [some "text", some "k"]).run.run {} =
      (.ok (some (Base64.encode b)), between) := by
    change (encrypt s "k" (some "text")).run.run {} = _
    rw [run_encrypt, hget]
    simp only [sealText, hb]
    rfl
  obtain ⟨-, -, -, hfails, -, -, hnull⟩ := batch_runs_in_order s .encrypt
  have hs : Calls s .encrypt {} before [some (Base64.encode b), none] between :=
    .cons hfirst (.cons (hnull _ _ rfl rfl) (.nil between))
  have hrow : (invoke s .encrypt [some "text", none]).run.run between =
      (.error Function.encrypt.noSecret, between) := run_invoke_of_no_secret (.inl rfl) "text"
  exact ⟨⟨_, hs⟩, hrow, (hfails _ _ _ _ _ _ _ _ hs hrow).1⟩

end ColumnFunctions
