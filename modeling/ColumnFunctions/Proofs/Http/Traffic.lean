import ColumnFunctions.Proofs.Http.Transport
import ColumnFunctions.Proofs.Lookups
import ColumnFunctions.Secret.Manager

namespace ColumnFunctions.Http.Server

open Secret

def after (server : Server) (requests : List Request) : State :=
  requests.foldl (fun state r ↦ ((server.respond r).run state).2) {}

/-- What Secrets Manager at the address has been sent. -/
def sent (address : String) (state : State) : List Manager.Request :=
  state.cache.requests.map (Manager.request address)

variable {server : Server} {state : State} {r : Request} {f : Function} {rows : List Row}

theorem map_secretId_sent (address : String) (state : State) :
    (sent address state).map Manager.Request.secretId = state.cache.requests := by
  rw [sent, List.map_map]
  exact List.map_id _

/-- Only a call that is accepted, of a function that takes a key, looks for keys. -/
theorem cache_respond (h : ¬ ∃ f rows, server.Accepts r f rows ∧ (f = .encrypt ∨ f = .decrypt))
    (state : State) : ((server.respond r).run state).2.cache = state.cache := by
  by_cases ha : ∃ f rows, server.Accepts r f rows
  · obtain ⟨f, rows, ha⟩ := ha
    rw [ha.run_respond, Prod.map_snd, id]
    exact cache_invokeBatch_of_keyless fun hf ↦ h ⟨f, rows, ha, hf⟩
  · rw [run_respond_of_not_accepts fun f rows ha' ↦ ha ⟨f, rows, ha'⟩]

theorem Accepts.sent_respond (h : server.Accepts r f rows) (address : String) (state : State) :
    sent address ((server.respond r).run state).2 = sent address state ++
      ((evaluated server.surroundings f state rows).filterMap (asked? f)).map
        (Manager.request address) := by
  rw [sent, h.run_respond, Prod.map_snd, id, requests_invokeBatch, List.map_append]
  rfl

theorem reached_respond (h : Cache.Reached server.surroundings.store state.cache) (r : Request) :
    Cache.Reached server.surroundings.store ((server.respond r).run state).2.cache := by
  by_cases ha : ∃ f rows, server.Accepts r f rows
  · obtain ⟨f, rows, ha⟩ := ha
    rw [ha.run_respond, Prod.map_snd, id, cache_invokeBatch]
    exact h.getEach _
  · rwa [run_respond_of_not_accepts fun f rows ha' ↦ ha ⟨f, rows, ha'⟩]

theorem reached_after (server : Server) (requests : List Request) :
    Cache.Reached server.surroundings.store (server.after requests).cache := by
  have hrun : ∀ state : State, Cache.Reached server.surroundings.store state.cache →
      Cache.Reached server.surroundings.store
        (requests.foldl (fun state r ↦ ((server.respond r).run state).2) state).cache := by
    induction requests with
    | nil => exact fun _ h ↦ h
    | cons r requests ih => exact fun state h ↦ ih _ (reached_respond h r)
  exact hrun {} (Cache.reached_empty _)

theorem run_respond_health (hm : r.method = "GET") (hp : r.path = "/health") (state : State) :
    (server.respond r).run state =
      (Coding.apply (r.headerList "accept-encoding") (health state), state) := by
  have hmethod : ¬ "GET" ∉ ["GET", "HEAD"] := by decide
  have hhead : ¬ "GET" = "HEAD" := by decide
  simp only [respond, hp, Route.ofPath?, hm, Route.methods, atRoute, if_neg hmethod, if_neg hhead]
  rfl

/-- A call with a row that uses a key which the store does not have is answered that it is
unavailable, and this row asks the store again. -/
theorem Accepts.respond_of_unavailable (h : server.Accepts r f rows)
    (hreached : Cache.Reached server.surroundings.store state.cache) {name : String}
    {e : Secret.Failure} (he : ∀ i, Gives name (server.surroundings.store name i) (.error e))
    {x : State × Row} (hx : x ∈ evaluated server.surroundings f state rows)
    (hused : used? f x.2 = some name) :
    asked? f x = some name ∧ ((server.respond r).run state).1.Reports 503
      ⟨"secret_unavailable", "secret unavailable: " ++ e.message⟩ := by
  obtain ⟨at_row, row⟩ := x
  have hkey : at_row.cache.key? name = none := by
    obtain ⟨i, hi⟩ := List.mem_iff_getElem?.1 hx
    obtain ⟨-, values, hcalls⟩ := getElem?_evaluated.1 hi
    exact (reached_of_calls hcalls hreached).key?_eq_none fun i ↦ ⟨e, gives_iff.1 (he i)⟩
  obtain ⟨hasked, next, hrow⟩ := run_invoke_of_unavailable hused hkey (gives_iff.1 (he _))
  refine ⟨hasked, ?_⟩
  have hreports := Response.reports_ofResult e.toFailure
  rw [h.run_respond, run_invokeBatch_of_mem_evaluated hx hrow, Prod.map_fst]
  exact hreports.coded _

open Classical in
/-- The traffic of a server whose Secrets Manager has one answer for each name. Only calls that are
accepted, of functions that take a key, look for keys. They ask for each key that a row up to the
first failing one uses and that is not known by then. So a name with a key is asked for once at
most, and each use of any other name asks for it again and fails the call. The number of keys that
are told is that of the names that were asked for and have one. -/
theorem store_traffic (answers : String → Manager.Answer) (nonces : ℕ → Gcm.Nonce)
    (maxBatchRows : ℕ) (address : String) (requests : List Request) :
    let server : Server := ⟨⟨Manager.store answers, nonces⟩, maxBatchRows⟩
    let state := server.after requests
    (∀ r, ((server.respond r).run state).2.cache ≠ state.cache →
      ∃ f rows, server.Accepts r f rows ∧ (f = .encrypt ∨ f = .decrypt)) ∧
    (∀ r f rows, server.Accepts r f rows →
      sent address ((server.respond r).run state).2 = sent address state ++
        ((evaluated server.surroundings f state rows).filterMap (asked? f)).map
          (Manager.request address)) ∧
    (∀ name (key : Key), (answers name).reply = .ok (Base64.encode key.val) →
      ((sent address state).map Manager.Request.secretId).count name ≤ 1) ∧
    (∀ name e, Gives name (answers name).reply (.error e) →
      ∀ r f rows, server.Accepts r f rows → ∀ x ∈ evaluated server.surroundings f state rows,
        used? f x.2 = some name → asked? f x = some name ∧
          ((server.respond r).run state).1.Reports 503
            ⟨"secret_unavailable", "secret unavailable: " ++ e.message⟩) ∧
    ∀ r, r.method = "GET" → r.path = "/health" →
      let response := ((server.respond r).run state).1
      let names := ((sent address state).map Manager.Request.secretId).toFinset
      response.status = 200 ∧ response.contentType = some "application/json" ∧
        response.body = (Health.mk "ok" (names.filter fun name ↦
          ∃ key : Key, (answers name).reply = .ok (Base64.encode key.val)).card).toValue.text := by
  intro server state
  have hreached : Cache.Reached (Manager.store answers) state.cache := reached_after server requests
  refine ⟨?_, ?_, ?_, ?_, ?_⟩
  · intro r hne
    exact by_contra fun h ↦ hne (cache_respond h state)
  · intro r f rows h
    exact h.sent_respond address state
  · intro name key hk
    rw [map_secretId_sent]
    exact hreached.asked_le_one hk
  · intro name e he r f rows h x hx hused
    exact h.respond_of_unavailable hreached (fun _ ↦ he) hx hused
  · intro r hm hp response names
    have hsize := hreached.size_eq fun _ _ ↦ rfl
    simp only [response, names, map_secretId_sent, run_respond_health hm hp, Coding.apply_status,
      Coding.apply_contentType, Coding.apply_body, health, hsize]
    exact ⟨rfl, rfl, rfl⟩

theorem store_traffic_repeated :
    let key : Key := ⟨List.replicate 32 0, rfl⟩
    let answers (name : String) : Manager.Answer :=
      if name = "k" then .text (Base64.encode key.val) else .error "ResourceNotFoundException"
    let server : Server :=
      ⟨⟨Manager.store answers, fun _ ↦ ⟨List.replicate 12 0, rfl⟩⟩, 2⟩
    let rows (name : String) : List Row := [[none, none], [some "", some name]]
    let call (name : String) : Request :=
      ⟨"POST", "/invoke", [("Content-Type", "application/json")],
        (Invocation.mk "decrypt" (rows name)).toValue.text⟩
    let health : Request := ⟨"GET", "/health", [], ""⟩
    let state := server.after [call "k", call "k", call "l"]
    let failure : Secret.Failure := .notFetched "l" .notFound
    (answers "k").reply = .ok (Base64.encode key.val) ∧
      Gives "l" (answers "l").reply (.error failure) ∧
      ((sent "" state).map Manager.Request.secretId).count "k" ≤ 1 ∧
      server.Accepts (call "l") .decrypt (rows "l") ∧
      (state, [some "", some "l"]) ∈ evaluated server.surroundings .decrypt state (rows "l") ∧
      ((server.respond (call "l")).run state).1.Reports 503
        ⟨"secret_unavailable", "secret unavailable: " ++ failure.message⟩ ∧
      health.path = "/health" ∧
      ((server.respond health).run state).1.body = (Health.mk "ok" 1).toValue.text := by
  intro key answers server rows call health state failure
  obtain ⟨-, -, honce, hfails, hhealth⟩ :=
    store_traffic answers server.surroundings.nonces 2 "" [call "k", call "k", call "l"]
  have hk : (answers "k").reply = .ok (Base64.encode key.val) := rfl
  have hl : Gives "l" (answers "l").reply (.error failure) := .notFetched .notFound
  have hrequests : state.cache.requests = ["k", "l"] := by decide +kernel
  have haccepts : server.Accepts (call "l") .decrypt (rows "l") := by
    refine ⟨rfl, by decide, ?_, by decide⟩
    exact Json.toOption_eq_some.1 (by decide +kernel)
  have hx : (state, [some "", some "l"]) ∈
      evaluated server.surroundings .decrypt state (rows "l") := by
    have hcalls : Calls server.surroundings .decrypt state [[none, none]] [none] state :=
      .cons (run_invoke_of_null rfl rfl) (.nil state)
    exact List.mem_iff_getElem?.2 ⟨1, getElem?_evaluated.2 ⟨rfl, _, hcalls⟩⟩
  have hpath : health.path = "/health" := by decide
  refine ⟨hk, hl, honce "k" key hk, haccepts, hx, ?_, hpath, ?_⟩
  · exact (hfails "l" failure hl _ _ _ haccepts _ hx rfl).2
  · classical
    have hnames : ["k", "l"].toFinset.filter
        (fun name ↦ ∃ key : Key, (answers name).reply = .ok (Base64.encode key.val)) = {"k"} := by
      have hne : ¬ ∃ key : Key, (answers "l").reply = .ok (Base64.encode key.val) := by
        rintro ⟨key, hkey⟩
        cases hkey
      rw [List.toFinset_cons, List.toFinset_cons, List.toFinset_nil, Finset.filter_insert,
        if_pos ⟨key, hk⟩, Finset.filter_insert, if_neg hne]
      rfl
    obtain ⟨-, -, hbody⟩ := hhealth health rfl hpath
    rw [hbody, map_secretId_sent, hrequests, hnames]
    rfl

end ColumnFunctions.Http.Server
