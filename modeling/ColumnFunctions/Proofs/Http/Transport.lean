import ColumnFunctions.Http.Server
import ColumnFunctions.Proofs.Batch
import ColumnFunctions.Proofs.Message

namespace ColumnFunctions

open Json

namespace Function

theorem ofName_eq_ok {name : String} {f : Function} : ofName name = .ok f ↔ f.name = name := by
  constructor
  · intro h
    rw [ofName] at h
    split at h
    · next g hg =>
      cases h
      simpa using List.find?_some hg
    · cases h
  · rintro rfl
    exact ofName_name f

theorem ofName_of_forall {name : String} (h : ∀ f : Function, f.name ≠ name) :
    ofName name = .error ⟨.unknownFunction, name⟩ := by
  have hfind : all.find? (·.name = name) = none := by
    rw [List.find?_eq_none]
    intro f _
    simpa using h f
  rw [ofName, hfind]

end Function

namespace Failure

theorem status_ne_ok (e : Failure) : e.status ≠ 200 := by
  rw [status]
  cases e.kind <;> decide

theorem code_ne_batchTooLarge (e : Failure) : e.code ≠ "batch_too_large" := by
  rw [code]
  cases e.kind <;> decide

end Failure

namespace Http

namespace Response

structure Reports (response : Response) (status : ℕ) (report : ErrorReport) : Prop where
  status_eq : response.status = status
  contentType_eq : response.contentType = some "application/json"
  body_reads : readDocument ErrorReport.ofNode response.body = .ok report

structure Carries (response : Response) (values : List (Option String)) : Prop where
  status_eq : response.status = 200
  contentType_eq : response.contentType = some "application/json"
  body_reads : readDocument Results.ofNode response.body = .ok ⟨values⟩

def ofResult : Except Failure (List (Option String)) → Response
  | .ok values => .json 200 (Results.mk values).toValue
  | .error e => .ofFailure e

theorem reports_ofReport (status : ℕ) (report : ErrorReport) :
    (ofReport status report).Reports status report :=
  ⟨rfl, rfl, report.readDocument_text⟩

theorem carries_ofResult (values : List (Option String)) : (ofResult (.ok values)).Carries values :=
  ⟨rfl, rfl, (Results.mk values).readDocument_text⟩

theorem reports_ofResult (e : Failure) :
    (ofResult (.error e)).Reports e.status ⟨e.code, e.message⟩ :=
  reports_ofReport e.status (.ofFailure e)

theorem Reports.unique {response : Response} {status status' : ℕ} {report report' : ErrorReport}
    (h : response.Reports status report) (h' : response.Reports status' report') :
    status = status' ∧ report = report' :=
  ⟨h.status_eq.symm.trans h'.status_eq, Except.ok.inj (h.body_reads.symm.trans h'.body_reads)⟩

end Response

section Coding

variable {response : Response} (accepted : List String)

@[simp] theorem Coding.apply_status :
    (Coding.apply accepted response).status = response.status := by
  rw [Coding.apply]
  split <;> rfl

@[simp] theorem Coding.apply_contentType :
    (Coding.apply accepted response).contentType = response.contentType := by
  rw [Coding.apply]
  split <;> rfl

@[simp] theorem Coding.apply_body : (Coding.apply accepted response).body = response.body := by
  rw [Coding.apply]
  split <;> rfl

theorem Response.Reports.coded {status : ℕ} {report : ErrorReport}
    (h : response.Reports status report) : (Coding.apply accepted response).Reports status report :=
  ⟨by simp [h.status_eq], by simp [h.contentType_eq], by simp [h.body_reads]⟩

theorem Response.Carries.coded {values : List (Option String)} (h : response.Carries values) :
    (Coding.apply accepted response).Carries values :=
  ⟨by simp [h.status_eq], by simp [h.contentType_eq], by simp [h.body_reads]⟩

end Coding

theorem Route.ofPath?_eq_invoke {path : String} :
    Route.ofPath? path = some .invoke ↔ path = "/invoke" := by
  constructor
  · intro h
    simp only [Route.ofPath?] at h
    split at h
    · rfl
    · cases h
    · cases h
  · rintro rfl
    rfl

/-- A request whose body is a text of the call, and no longer than a body may be. -/
structure Request.Sends (r : Request) (call : Invocation) : Prop where
  method_eq : r.method = "POST"
  path_eq : r.path = "/invoke"
  isJson : r.isJson
  size_le : r.body.utf8ByteSize ≤ 2097152
  body_reads : readDocument Invocation.ofNode r.body = .ok call

theorem Request.Sends.invocation_eq {r : Request} {call : Invocation} (h : r.Sends call) :
    r.invocation = .ok call := by
  have hbeginning : readBeginning Invocation.ofNode r.body = .ok call := by
    have hbody := h.body_reads
    rw [readDocument] at hbody
    rw [readBeginning]
    split at hbody
    · cases hbody
    · next x hx =>
      split at hbody
      · cases hbody
      · rwa [hx]
  have hsize : ¬ maxBodySize < r.body.utf8ByteSize := Nat.not_lt.2 h.size_le
  rw [invocation, if_neg (not_not_intro h.isJson), if_neg hsize, hbeginning]
  rfl

namespace Server

variable {server : Server} {state : State} {r : Request} {call : Invocation} {f : Function}
  {rows : List Row}

/-- The request is a call of the function for the rows, of which there are not too many. -/
structure Accepts (server : Server) (r : Request) (f : Function) (rows : List Row) : Prop where
  method_eq : r.method = "POST"
  path_eq : r.path = "/invoke"
  invocation_eq : r.invocation = .ok ⟨f.name, rows⟩
  length_le : rows.length ≤ server.maxBatchRows

theorem run_respond_of_invocation (hm : r.method = "POST") (hp : r.path = "/invoke")
    (hc : r.invocation = .ok call) :
    (server.respond r).run state =
      ((server.invoke call).run state).map (Coding.apply (r.headerList "accept-encoding")) id := by
  simp only [respond, hp, Route.ofPath?, hm, Route.methods, atRoute, hc, List.mem_singleton,
    not_true_eq_false, if_false]
  rfl

theorem run_invoke_of_unknown (h : ∀ f : Function, f.name ≠ call.function) :
    (server.invoke call).run state =
      (.ofFailure ⟨.unknownFunction, call.function⟩, state) := by
  rw [invoke, Function.ofName_of_forall h]
  rfl

theorem run_invoke_of_many (hf : f.name = call.function)
    (h : server.maxBatchRows < call.rows.length) :
    (server.invoke call).run state =
      (.batchTooLarge call.rows.length server.maxBatchRows, state) := by
  rw [invoke, Function.ofName_eq_ok.2 hf]
  dsimp only
  rw [if_pos h]
  rfl

theorem run_invoke_of_le (hf : f.name = call.function)
    (h : call.rows.length ≤ server.maxBatchRows) :
    (server.invoke call).run state =
      ((invokeBatch server.surroundings f call.rows).run.run state).map .ofResult id := by
  rw [invoke, Function.ofName_eq_ok.2 hf]
  dsimp only
  rw [if_neg (Nat.not_lt.2 h), StateT.run_bind]
  rcases (invokeBatch server.surroundings f call.rows).run.run state with ⟨_ | values, next⟩ <;> rfl

/-- What a call that is accepted does is what its batch does. -/
theorem Accepts.run_respond (h : server.Accepts r f rows) (state : State) :
    (server.respond r).run state =
      ((invokeBatch server.surroundings f rows).run.run state).map
        (fun result ↦ Coding.apply (r.headerList "accept-encoding") (.ofResult result)) id := by
  rw [run_respond_of_invocation h.method_eq h.path_eq h.invocation_eq,
    run_invoke_of_le rfl h.length_le]
  rfl

theorem run_invoke_of_not_accepts (hm : r.method = "POST") (hp : r.path = "/invoke")
    (hc : r.invocation = .ok call) (h : ∀ f rows, ¬ server.Accepts r f rows) :
    ((server.invoke call).run state).2 = state := by
  by_cases hf : ∃ f : Function, f.name = call.function
  · obtain ⟨f, hf⟩ := hf
    rcases Nat.lt_or_ge server.maxBatchRows call.rows.length with hlen | hlen
    · rw [run_invoke_of_many hf hlen]
    · refine absurd ⟨hm, hp, ?_, hlen⟩ (h f call.rows)
      rw [hc, hf]
  · rw [run_invoke_of_unknown (not_exists.1 hf)]

theorem run_respond_of_not_accepts (h : ∀ f rows, ¬ server.Accepts r f rows) (state : State) :
    ((server.respond r).run state).2 = state := by
  by_cases hcall : r.method = "POST" ∧ r.path = "/invoke" ∧ ∃ call, r.invocation = .ok call
  · obtain ⟨hm, hp, call, hc⟩ := hcall
    rw [run_respond_of_invocation hm hp hc]
    exact run_invoke_of_not_accepts hm hp hc h
  rw [respond]
  cases hroute : Route.ofPath? r.path with
  | none => rfl
  | some route =>
    dsimp only
    split
    · rfl
    next hmethod =>
    cases route with
    | health => rfl
    | invoke =>
      have hpost : r.method = "POST" := by simpa [Route.methods] using hmethod
      rw [atRoute]
      cases hc : r.invocation with
      | error response => rfl
      | ok call =>
        exact absurd ⟨hpost, Route.ofPath?_eq_invoke.1 hroute, call, hc⟩ hcall

end Server

/-- A call is read from its text. A request that sends one is answered that the function is unknown,
that the rows are too many, or as the batch that it asks for ends: with all results or with one
error. The batch does to the state what it does without a request; else the state is as it was. -/
theorem transport_faithful :
    (∀ call : Invocation, readDocument Invocation.ofNode call.toValue.text = .ok call) ∧
    ∀ (server : Server) (state : State) (call : Invocation) (r : Request), r.Sends call →
      let response := ((server.respond r).run state).1
      let next := ((server.respond r).run state).2
      ((∀ f : Function, f.name ≠ call.function) → next = state ∧
        response.Reports 400 ⟨"unknown_function", "unknown function: " ++ call.function⟩) ∧
      ∀ f : Function, f.name = call.function →
        let batch := (invokeBatch server.surroundings f call.rows).run.run state
        (server.maxBatchRows < call.rows.length → next = state ∧
          response.Reports 400 ⟨"batch_too_large", "batch has " ++ toString call.rows.length ++
            " rows; at most " ++ toString server.maxBatchRows ++ " are accepted"⟩) ∧
        ((∃ message, response.Reports 400 ⟨"batch_too_large", message⟩) →
          server.maxBatchRows < call.rows.length) ∧
        (call.rows.length ≤ server.maxBatchRows → next = batch.2 ∧
          (∀ values, batch.1 = .ok values →
            values.length = call.rows.length ∧ response.Carries values) ∧
          ∀ e, batch.1 = .error e → response.Reports e.status ⟨e.code, e.message⟩) ∧
        (response.status = 200 → ∃ values, batch.1 = .ok values ∧
          values.length = call.rows.length ∧ response.Carries values) := by
  refine ⟨Invocation.readDocument_text, ?_⟩
  intro server state call r h response next
  have hrun : (server.respond r).run state = _ :=
    Server.run_respond_of_invocation h.method_eq h.path_eq h.invocation_eq
  have hresponse : response = Coding.apply _ ((server.invoke call).run state).1 :=
    congrArg Prod.fst hrun
  have hnext : next = ((server.invoke call).run state).2 := (congrArg Prod.snd hrun).trans rfl
  refine ⟨?_, ?_⟩
  · intro hunknown
    rw [hresponse, hnext, Server.run_invoke_of_unknown hunknown]
    exact ⟨rfl, (Response.reports_ofReport _ _).coded _⟩
  intro f hf batch
  rcases Nat.lt_or_ge server.maxBatchRows call.rows.length with hmany | hle
  · rw [Server.run_invoke_of_many hf hmany] at hresponse hnext
    have hreports : response.Reports 400 _ := hresponse ▸ (Response.reports_ofReport _ _).coded _
    refine ⟨fun _ ↦ ⟨hnext, hreports⟩, fun _ ↦ hmany, fun hle ↦ absurd hmany (Nat.not_lt.2 hle),
      fun hstatus ↦ ?_⟩
    rw [hreports.status_eq] at hstatus
    cases hstatus
  · rw [Server.run_invoke_of_le hf hle, Prod.map_fst] at hresponse
    rw [Server.run_invoke_of_le hf hle, Prod.map_snd, id] at hnext
    have hok : ∀ values, batch.1 = .ok values →
        values.length = call.rows.length ∧ response.Carries values := by
      intro values hvalues
      rw [hresponse, hvalues]
      exact ⟨length_invokeBatch (Prod.ext hvalues rfl), (Response.carries_ofResult values).coded _⟩
    have herror : ∀ e, batch.1 = .error e → response.Reports e.status ⟨e.code, e.message⟩ := by
      intro e he
      rw [hresponse, he]
      exact (Response.reports_ofResult e).coded _
    refine ⟨fun hmany ↦ absurd hmany (Nat.not_lt.2 hle), ?_, fun _ ↦ ⟨hnext, hok, herror⟩, ?_⟩
    · rintro ⟨message, hreports⟩
      cases hbatch : batch.1 with
      | ok values =>
        have hstatus := hreports.status_eq
        rw [(hok values hbatch).2.status_eq] at hstatus
        cases hstatus
      | error e =>
        obtain ⟨-, hreport⟩ := (herror e hbatch).unique hreports
        exact absurd (congrArg ErrorReport.code hreport) e.code_ne_batchTooLarge
    · intro hstatus
      cases hbatch : batch.1 with
      | ok values => exact ⟨values, rfl, hok values hbatch⟩
      | error e =>
        rw [(herror e hbatch).status_eq] at hstatus
        exact absurd hstatus e.status_ne_ok

theorem transport_faithful_limit :
    let server : Server :=
      ⟨⟨fun _ _ ↦ .error .notFound, fun _ ↦ ⟨List.replicate 12 0, rfl⟩⟩, 1⟩
    let request (body : String) : Request :=
      ⟨"POST", "/invoke", [("Content-Type", "application/json")], body⟩
    let response (call : Invocation) : Response :=
      ((server.respond (request call.toValue.text)).run {}).1
    let one : Invocation := ⟨"compress", [[none]]⟩
    let two : Invocation := ⟨"compress", [[none], [none]]⟩
    let unknown : Invocation := ⟨"\"😀", [[none], [none]]⟩
    (request one.toValue.text).Sends one ∧ (request two.toValue.text).Sends two ∧
      (request unknown.toValue.text).Sends unknown ∧
      (response one).Carries [none] ∧
      (response two).Reports 400
        ⟨"batch_too_large", "batch has 2 rows; at most 1 are accepted"⟩ ∧
      (response unknown).Reports 400 ⟨"unknown_function", "unknown function: \"😀"⟩ := by
  intro server request response one two unknown
  obtain ⟨hreads, hanswers⟩ := transport_faithful
  have hpath : ∀ body, (request body).path = (request "").path := fun _ ↦ rfl
  have hjson : ∀ body, (request body).isJson = (request "").isJson := fun _ ↦ rfl
  have hsends : ∀ call, call.toValue.text.utf8ByteSize ≤ 2097152 →
      (request call.toValue.text).Sends call := by
    intro call hsize
    refine ⟨rfl, ?_, ?_, hsize, hreads call⟩
    · rw [hpath]
      decide
    · rw [hjson]
      decide +kernel
  have hone := hsends one (by decide +kernel)
  have htwo := hsends two (by decide +kernel)
  have hunknown := hsends unknown (by decide +kernel)
  refine ⟨hone, htwo, hunknown, ?_, ?_, ?_⟩
  · obtain ⟨-, hknown⟩ := hanswers server {} one _ hone
    obtain ⟨-, -, hbatch, -⟩ := hknown .compress rfl
    exact ((hbatch (by decide)).2.1 [none] rfl).2
  · obtain ⟨-, hknown⟩ := hanswers server {} two _ htwo
    have hmessage : "batch has 2 rows; at most 1 are accepted" = "batch has " ++
        toString two.rows.length ++ " rows; at most " ++ toString server.maxBatchRows ++
        " are accepted" := by
      decide
    rw [hmessage]
    exact ((hknown .compress rfl).1 (by decide)).2
  · obtain ⟨hnone, -⟩ := hanswers server {} unknown _ hunknown
    refine (hnone fun f ↦ ?_).2
    cases f <;> decide

end Http

end ColumnFunctions
