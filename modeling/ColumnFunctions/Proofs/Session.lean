import ColumnFunctions.Proofs.Encryption
import ColumnFunctions.Proofs.Secret.Cache
import ColumnFunctions.Service

namespace ColumnFunctions

namespace Secret.Cache

variable {store : Store} {name : String} {c : Cache} {key : Key}

theorem key?_get_of_key? {other : String} (h : c.key? other = some key) :
    (c.get store name).2.key? other = some key := by
  by_cases hne : other = name
  · subst hne
    rw [get_of_key? h]
    exact h
  · rw [(get_of_ne store hne c).1]
    exact h

theorem key?_get_of_ok (h : (c.get store name).1 = .ok key) :
    (c.get store name).2.key? name = some key := by
  cases hkey : c.key? name with
  | some known =>
    rw [get_of_key? hkey] at h ⊢
    cases h
    exact hkey
  | none =>
    cases hr : keyOfReply name (store name (c.asked name)) with
    | error e =>
      rw [get_of_error hkey hr] at h
      cases h
    | ok found =>
      rw [get_of_ok hkey hr] at h ⊢
      cases h
      rw [key?_mk_append, if_pos rfl, ← key?, hkey, Option.none_or]

end Secret.Cache

section Keeps

variable {α β : Type}

def Keeps (act : Action α) : Prop :=
  ∀ (state : State) (name : String) (key : Key), state.cache.key? name = some key →
    (act.run.run state).2.cache.key? name = some key

theorem keeps_of_state_eq {act : Action α} (h : ∀ state, (act.run.run state).2 = state) :
    Keeps act := by
  intro state name key hkey
  rw [h]
  exact hkey

theorem Keeps.pure (a : α) : Keeps (Pure.pure a : Action α) := keeps_of_state_eq fun _ ↦ rfl

theorem Keeps.throw (e : Failure) : Keeps (MonadExcept.throw e : Action α) :=
  keeps_of_state_eq fun _ ↦ rfl

theorem Keeps.lift (r : Except Failure α) : Keeps (liftM r : Action α) :=
  keeps_of_state_eq fun _ ↦ rfl

theorem Keeps.liftExcept (r : Except Failure α) : Keeps (liftExcept r : Action α) := by
  cases r with
  | ok a => exact Keeps.pure a
  | error e => exact Keeps.throw e

theorem Keeps.bind {act : Action α} {next : α → Action β} (h : Keeps act)
    (hn : ∀ a, Keeps (next a)) : Keeps (act >>= next) := by
  intro state name key hkey
  have hact := h state name key hkey
  rw [run_bind]
  generalize act.run.run state = r at hact ⊢
  obtain ⟨_ | a, between⟩ := r
  · exact hact
  · exact hn a between name key hact

theorem Keeps.mapM {act : α → Action β} (h : ∀ a, Keeps (act a)) (as : List α) :
    Keeps (as.mapM act) := by
  induction as with
  | nil => exact Keeps.pure []
  | cons a as ih =>
    rw [List.mapM_cons]
    refine (h a).bind fun b ↦ ih.bind fun bs ↦ ?_
    exact Keeps.pure (b :: bs)

variable (s : Surroundings)

theorem keeps_key (name : String) : Keeps (Secret.key s name) := by
  intro state other key hkey
  rw [run_key]
  exact Secret.Cache.key?_get_of_key? hkey

theorem keeps_encrypt (secret : String) (data : Option String) :
    Keeps (encrypt s secret data) := by
  cases data with
  | none => exact Keeps.pure none
  | some text =>
    refine (keeps_key s secret).bind fun key ↦ Keeps.bind (fun _ _ _ h ↦ h) fun nonce ↦ ?_
    exact (Keeps.lift (sealText nonce key text)).bind fun b ↦ Keeps.pure (some b)

theorem keeps_decrypt (secret : String) (data : Option String) :
    Keeps (decrypt s secret data) := by
  cases data with
  | none => exact Keeps.pure none
  | some encrypted =>
    refine (keeps_key s secret).bind fun key ↦ ?_
    exact (Keeps.lift (openText key encrypted)).bind fun t ↦ Keeps.pure (some t)

theorem keeps_withSecret (f : Function) (row : Row) (data : Option String)
    {act : String → Option String → Action (Option String)}
    (h : ∀ secret data, Keeps (act secret data)) : Keeps (invoke.withSecret f row data act) := by
  rw [invoke.withSecret]
  split
  · exact Keeps.pure none
  · exact (Keeps.lift (secretName f row)).bind fun secret ↦ h secret data

theorem keeps_invoke (f : Function) (row : Row) : Keeps (invoke s f row) := by
  rw [invoke]
  split
  · exact Keeps.throw _
  cases f with
  | compress => exact Keeps.pure _
  | encrypt => exact keeps_withSecret .encrypt row _ (keeps_encrypt s)
  | decrypt => exact keeps_withSecret .decrypt row _ (keeps_decrypt s)
  | _ => exact Keeps.liftExcept _

theorem keeps_invokeBatch (f : Function) (rows : List Row) : Keeps (invokeBatch s f rows) :=
  Keeps.mapM (keeps_invoke s f) rows

end Keeps

inductive Request where
  | get (name : String)
  | encrypt (secret : String) (data : Option String)
  | decrypt (secret : String) (data : Option String)
  | invoke (f : Function) (row : Row)
  | batch (f : Function) (rows : List Row)

namespace Request

variable (s : Surroundings)

def after (state : State) : Request → State
  | .get name => { state with cache := (state.cache.get s.store name).2 }
  | .encrypt secret data => ((ColumnFunctions.encrypt s secret data).run.run state).2
  | .decrypt secret data => ((ColumnFunctions.decrypt s secret data).run.run state).2
  | .invoke f row => ((ColumnFunctions.invoke s f row).run.run state).2
  | .batch f rows => ((invokeBatch s f rows).run.run state).2

variable {s}

theorem key?_after {state : State} {name : String} {key : Key}
    (h : state.cache.key? name = some key) (r : Request) :
    (r.after s state).cache.key? name = some key := by
  cases r with
  | get other => exact Secret.Cache.key?_get_of_key? h
  | encrypt secret data => exact keeps_encrypt s secret data state name key h
  | decrypt secret data => exact keeps_decrypt s secret data state name key h
  | invoke f row => exact keeps_invoke s f row state name key h
  | batch f rows => exact keeps_invokeBatch s f rows state name key h

end Request

def session (s : Surroundings) (requests : List Request) (state : State) : State :=
  requests.foldl (Request.after s) state

theorem key?_session {s : Surroundings} {state : State} {name : String} {key : Key}
    (h : state.cache.key? name = some key) (requests : List Request) :
    (session s requests state).cache.key? name = some key := by
  induction requests generalizing state with
  | nil => exact h
  | cons r requests ih => exact ih (Request.key?_after h r)

section Batch

variable {s : Surroundings} {f : Function} {state next : State} {values : List (Option String)}

theorem run_bind_eq_ok {α β : Type} {act : Action α} {rest : α → Action β} {b : β} :
    (act >>= rest).run.run state = (.ok b, next) ↔
      ∃ a between, act.run.run state = (.ok a, between) ∧
        (rest a).run.run between = (.ok b, next) := by
  rw [run_bind]
  constructor
  · intro h
    split at h
    · next a between ha => exact ⟨a, between, ha, h⟩
    · cases h
  · rintro ⟨a, between, ha, hb⟩
    rw [ha]
    exact hb

theorem length_invokeBatch {rows : List Row}
    (h : (invokeBatch s f rows).run.run state = (.ok values, next)) :
    values.length = rows.length := by
  induction rows generalizing state values with
  | nil => cases h; rfl
  | cons row rows ih =>
    rw [invokeBatch, List.mapM_cons] at h
    obtain ⟨value, between, -, h⟩ := run_bind_eq_ok.1 h
    obtain ⟨more, last, hmore, h⟩ := run_bind_eq_ok.1 h
    cases h
    rw [List.length_cons, List.length_cons, ih hmore]

/-- A batch gets to the rows behind others if all of these succeed. -/
theorem run_invokeBatch_append {before : List Row}
    (h : (invokeBatch s f before).run.run state = (.ok values, next)) (rows : List Row) :
    (invokeBatch s f (before ++ rows)).run.run state =
      ((invokeBatch s f rows).run.run next).map (Except.map (values ++ ·)) id := by
  rw [invokeBatch, List.mapM_append, run_bind, ← invokeBatch, h]
  dsimp only
  rw [run_bind, ← invokeBatch]
  obtain ⟨_ | more, last⟩ := (invokeBatch s f rows).run.run next <;> rfl

theorem run_invokeBatch_cons_of_ok {row : Row} {value : Option String}
    (h : (invoke s f row).run.run state = (.ok value, next)) (rows : List Row) :
    (invokeBatch s f (row :: rows)).run.run state =
      ((invokeBatch s f rows).run.run next).map (Except.map (value :: ·)) id := by
  rw [invokeBatch, List.mapM_cons, run_bind, h]
  dsimp only
  rw [run_bind, ← invokeBatch]
  obtain ⟨_ | more, last⟩ := (invokeBatch s f rows).run.run next <;> rfl

/-- A value of a batch is what its row gives after the rows before it. -/
theorem reached_of_getElem? {rows : List Row} {i : ℕ} {row : Row} {value : Option String}
    (h : ((invokeBatch s f rows).run.run state).1 = .ok values) (hrow : rows[i]? = some row)
    (hvalue : values[i]? = some value) :
    ∃ earlier between, (invokeBatch s f (rows.take i)).run.run state = (.ok earlier, between) ∧
      ((invoke s f row).run.run between).1 = .ok value := by
  obtain ⟨hi, rfl⟩ := List.getElem?_eq_some_iff.1 hrow
  have hall : (invokeBatch s f rows).run.run state =
      (.ok values, ((invokeBatch s f rows).run.run state).2) := Prod.ext h rfl
  rw [← List.take_append_drop i rows, invokeBatch, List.mapM_append] at hall
  obtain ⟨earlier, between, hearlier, hall⟩ := run_bind_eq_ok.1 hall
  obtain ⟨more, last, hmore, hall⟩ := run_bind_eq_ok.1 hall
  have hlen := length_invokeBatch hearlier
  rw [List.length_take, Nat.min_eq_left (Nat.le_of_lt hi)] at hlen
  rw [← List.cons_getElem_drop_succ (h := hi), List.mapM_cons] at hmore
  obtain ⟨v, at_next, hv, hmore⟩ := run_bind_eq_ok.1 hmore
  obtain ⟨vs, _, -, hmore⟩ := run_bind_eq_ok.1 hmore
  cases hmore
  have hvalues : values = earlier ++ v :: vs := by
    have := congrArg Prod.fst hall
    exact (Except.ok.inj this).symm
  rw [hvalues, List.getElem?_append_right (Nat.le_of_eq hlen), hlen, Nat.sub_self] at hvalue
  cases hvalue
  exact ⟨earlier, between, hearlier, by rw [hv]⟩

end Batch

section Readable

variable {s : Surroundings} {state : State} {secret text encrypted : String} {key : Key}

theorem sealText_eq_ok {nonce : Gcm.Nonce} (h : sealText nonce key text = .ok encrypted) :
    Encrypts key text encrypted := by
  simp only [sealText] at h
  split at h
  · next b hb =>
    cases h
    exact ⟨b, ⟨nonce, hb⟩, rfl⟩
  · cases h

theorem run_encrypt (s : Surroundings) (secret text : String) (state : State) :
    (encrypt s secret (some text)).run.run state =
      match state.cache.get s.store secret with
      | (.ok key, cache) =>
        ((sealText (s.nonces state.drawn) key text).map some, ⟨cache, state.drawn + 1⟩)
      | (.error e, cache) => (.error e.toFailure, ⟨cache, state.drawn⟩) := by
  rw [encrypt, run_bind, run_key]
  obtain ⟨_ | key, cache⟩ := state.cache.get s.store secret
  · rfl
  · dsimp only [Except.mapError]
    rw [run_bind]
    change (liftM (sealText (s.nonces state.drawn) key text) >>= fun b ↦ pure (some b) :
      Action (Option String)).run.run ⟨cache, state.drawn + 1⟩ = _
    rw [run_bind]
    cases sealText (s.nonces state.drawn) key text <;> rfl

theorem cache_encrypt (s : Surroundings) (secret text : String) (state : State) :
    ((encrypt s secret (some text)).run.run state).2.cache =
      (state.cache.get s.store secret).2 := by
  rw [run_encrypt]
  rcases state.cache.get s.store secret with ⟨_ | _, _⟩ <;> rfl

theorem run_encrypt_of_error {e : Secret.Failure}
    (h : (state.cache.get s.store secret).1 = .error e) (text : String) :
    (encrypt s secret (some text)).run.run state =
      (.error e.toFailure, { state with cache := (state.cache.get s.store secret).2 }) := by
  have hget : state.cache.get s.store secret = (.error e, (state.cache.get s.store secret).2) :=
    Prod.ext h rfl
  rw [run_encrypt, hget]

theorem key_of_encrypt {next : State}
    (h : (encrypt s secret (some text)).run.run state = (.ok (some encrypted), next)) :
    ∃ key, Encrypts key text encrypted ∧ next.cache.key? secret = some key := by
  rw [run_encrypt] at h
  split at h
  · next key cache hget =>
    rw [Prod.mk.injEq] at h
    obtain ⟨hsealed, rfl⟩ := h
    cases hs : sealText (s.nonces state.drawn) key text with
    | error e => rw [hs] at hsealed; cases hsealed
    | ok b =>
      rw [hs] at hsealed
      cases hsealed
      have hkey := Secret.Cache.key?_get_of_ok (congrArg Prod.fst hget)
      rw [hget] at hkey
      exact ⟨key, sealText_eq_ok hs, hkey⟩
  · cases h

theorem decrypt_of_encrypts (hkey : state.cache.key? secret = some key)
    (h : Encrypts key text encrypted) :
    (decrypt s secret (some encrypted)).run.run state = (.ok (some text), state) := by
  rw [run_decrypt, Secret.Cache.get_of_key? hkey]
  dsimp only [Except.mapError, Except.bind]
  rw [openText_eq_ok.2 h]
  rfl

theorem Encrypts.length_decode (h : Encrypts key text encrypted) :
    ∃ b, Base64.decode encrypted = .ok b ∧ b.length = 28 + (Bytes.ofText text).length := by
  obtain ⟨b, ⟨nonce, hb⟩, rfl⟩ := h
  refine ⟨b, Base64.decode_encode b, ?_⟩
  rw [Aead.length_of_encrypt hb, Nat.add_comm]
  rfl

end Readable

/-- A request encrypts a text under a name: by itself, in a row of a batch that succeeds, or in a
row that a batch gets to, whatever becomes of the rows after it. -/
inductive Request.Encrypts (s : Surroundings) (state : State) (secret text encrypted : String) :
    Request → Prop where
  | alone (h : ((ColumnFunctions.encrypt s secret (some text)).run.run state).1 =
      .ok (some encrypted)) : Encrypts s state secret text encrypted (.encrypt secret (some text))
  | invoked (h : ((ColumnFunctions.invoke s .encrypt [some text, some secret]).run.run state).1 =
      .ok (some encrypted)) :
      Encrypts s state secret text encrypted (.invoke .encrypt [some text, some secret])
  | answered {rows : List Row} {values : List (Option String)} {i : ℕ}
      (h : ((invokeBatch s .encrypt rows).run.run state).1 = .ok values)
      (hrow : rows[i]? = some [some text, some secret])
      (hvalue : values[i]? = some (some encrypted)) :
      Encrypts s state secret text encrypted (.batch .encrypt rows)
  | reached {before : List Row} {values : List (Option String)} {next : State}
      (h : (invokeBatch s .encrypt before).run.run state = (.ok values, next))
      (hrow : ((ColumnFunctions.invoke s .encrypt [some text, some secret]).run.run next).1 =
        .ok (some encrypted)) (rest : List Row) :
      Encrypts s state secret text encrypted
        (.batch .encrypt (before ++ [some text, some secret] :: rest))

theorem Request.Encrypts.key_after {s : Surroundings} {state : State}
    {secret text encrypted : String} {r : Request}
    (h : r.Encrypts s state secret text encrypted) :
    ∃ key, ColumnFunctions.Encrypts key text encrypted ∧
      (r.after s state).cache.key? secret = some key := by
  -- In a batch the rows after the one that encrypts keep its key.
  have hreached : ∀ {before : List Row} {values : List (Option String)} {next : State}
      (rest : List Row), (invokeBatch s .encrypt before).run.run state = (.ok values, next) →
      ((ColumnFunctions.invoke s .encrypt [some text, some secret]).run.run next).1 =
        .ok (some encrypted) →
      ∃ key, ColumnFunctions.Encrypts key text encrypted ∧
        ((invokeBatch s .encrypt (before ++ [some text, some secret] :: rest)).run.run
          state).2.cache.key? secret = some key := by
    intro before values next rest hb hrow
    obtain ⟨key, henc, hkey⟩ := key_of_encrypt (Prod.ext hrow rfl)
    refine ⟨key, henc, ?_⟩
    rw [run_invokeBatch_append hb, run_invokeBatch_cons_of_ok (Prod.ext hrow rfl)]
    exact keeps_invokeBatch s .encrypt rest _ secret key hkey
  cases h with
  | alone h => exact key_of_encrypt (Prod.ext h rfl)
  | invoked h => exact key_of_encrypt (Prod.ext h rfl)
  | @answered rows values i h hrow hvalue =>
    obtain ⟨earlier, between, hb, hr⟩ := reached_of_getElem? h hrow hvalue
    obtain ⟨hi, hget⟩ := List.getElem?_eq_some_iff.1 hrow
    have hrows : rows = rows.take i ++ [some text, some secret] :: rows.drop (i + 1) := by
      rw [← hget, List.cons_getElem_drop_succ, List.take_append_drop]
    rw [hrows]
    exact hreached _ hb hr
  | reached h hrow rest => exact hreached rest h hrow

/-- What was encrypted under a name in a session is 28 octets longer than its text, and decrypts
under the name to its text at any later time, by itself or in a row that a batch gets to. The state
stays as it is, so the store is not asked again. -/
theorem encrypted_stays_readable (s : Surroundings) (earlier between : List Request)
    (request : Request) (secret text encrypted : String)
    (h : request.Encrypts s (session s earlier {}) secret text encrypted) :
    (∃ b, Base64.decode encrypted = .ok b ∧ b.length = 28 + (Bytes.ofText text).length) ∧
    let state := session s (earlier ++ request :: between) {}
    (decrypt s secret (some encrypted)).run.run state = (.ok (some text), state) ∧
    (invoke s .decrypt [some encrypted, some secret]).run.run state = (.ok (some text), state) ∧
    ∀ (before rest : List Row) (values : List (Option String)) (next : State),
      (invokeBatch s .decrypt before).run.run state = (.ok values, next) →
      (invoke s .decrypt [some encrypted, some secret]).run.run next = (.ok (some text), next) ∧
      (invokeBatch s .decrypt (before ++ [some encrypted, some secret] :: rest)).run.run state =
        ((invokeBatch s .decrypt rest).run.run next).map
          (Except.map fun more ↦ values ++ some text :: more) id := by
  obtain ⟨key, henc, hkey⟩ := h.key_after
  refine ⟨henc.length_decode, ?_⟩
  intro state
  have hstate : state.cache.key? secret = some key := by
    have := key?_session (s := s) hkey between
    simpa only [state, session, List.foldl_append, List.foldl_cons] using this
  refine ⟨decrypt_of_encrypts hstate henc, decrypt_of_encrypts hstate henc, ?_⟩
  intro before rest values next hb
  have hnext : next.cache.key? secret = some key := by
    have := keeps_invokeBatch s .decrypt before state secret key hstate
    rwa [hb] at this
  have hrow : (invoke s .decrypt [some encrypted, some secret]).run.run next =
      (.ok (some text), next) := decrypt_of_encrypts hnext henc
  refine ⟨hrow, ?_⟩
  rw [run_invokeBatch_append hb, run_invokeBatch_cons_of_ok hrow]
  obtain ⟨_ | more, last⟩ := (invokeBatch s .decrypt rest).run.run next <;> rfl

theorem encrypted_stays_readable_lost :
    let key : Key := ⟨List.replicate 32 0, rfl⟩
    let s : Surroundings := ⟨Secret.Store.ofScript fun name ↦
      if name = "k" then [.ok (Base64.encode key.val), .error .notFound] else [],
      fun _ ↦ ⟨List.replicate 12 0, rfl⟩⟩
    let request : Request := .batch .encrypt [[some "text", some "k"], [some "text", some "l"]]
    let state := session s ([.get "l"] ++ request :: [.get "l"]) {}
    ∃ encrypted, request.Encrypts s (session s [.get "l"] {}) "k" "text" encrypted ∧
      (decrypt s "k" (some encrypted)).run.run state = (.ok (some "text"), state) := by
  intro key s request state
  have hlen : (Bytes.ofText "text").length ≤ Gcm.maxText := by decide +kernel
  obtain ⟨b, hb⟩ := Aead.exists_encrypt (s.nonces 0) key.property hlen
  have hkey : Secret.keyOfReply "k" (s.store "k" 0) = .ok key :=
    Secret.keyOfReply_eq_ok.2 rfl
  have hget : Secret.Cache.get s.store "k" ⟨[], ["l"]⟩ =
      (.ok key, ⟨[("k", key)], ["l", "k"]⟩) := Secret.Cache.get_of_ok rfl hkey
  have hrow : ((invoke s .encrypt [some "text", some "k"]).run.run ⟨⟨[], ["l"]⟩, 0⟩).1 =
      .ok (some (Base64.encode b)) := by
    change ((encrypt s "k" (some "text")).run.run _).1 = _
    rw [run_encrypt, hget]
    simp only [sealText, hb]
    rfl
  have hbefore : (invokeBatch s .encrypt []).run.run (session s [.get "l"] {}) =
      (.ok [], ⟨⟨[], ["l"]⟩, 0⟩) := rfl
  have h : request.Encrypts s (session s [.get "l"] {}) "k" "text" (Base64.encode b) :=
    .reached hbefore hrow [[some "text", some "l"]]
  exact ⟨_, h, (encrypted_stays_readable s [.get "l"] [.get "l"] request _ _ _ h).2.1⟩

end ColumnFunctions
