import FsMeta.Http.Api
import FsMeta.Proofs.Service.Atomicity

set_option autoImplicit false

namespace FsMeta

open Scoped (Only)

namespace Service

variable {α β : Type} {service between later : Service}

structure Unchanged (service later : Service) : Prop where
  active : later.store.active = service.store.active
  history : later.store.history = service.store.history

namespace Unchanged

theorem refl (service : Service) : service.Unchanged service := ⟨rfl, rfl⟩

theorem trans (one : service.Unchanged between) (two : between.Unchanged later) : service.Unchanged later where
  active := two.active.trans one.active
  history := two.history.trans one.history

theorem current (unchanged : service.Unchanged later) : later.store.current = service.store.current :=
  Store.current_of_history_eq unchanged.history

/-- What a new transaction reads stays the same too, even if the clock has moved. -/
theorem committed (unchanged : service.Unchanged later)
    (bounded : Store.Bounded service.store.clock service.store.history)
    (forward : service.store.clock ≤ later.store.clock) : later.store.committed = service.store.committed := by
  have stays : Store.Bounded later.store.clock later.store.history := by
    rw [unchanged.history]
    exact bounded.mono forward
  rw [Store.committed_eq_current bounded, Store.committed_eq_current stays, unchanged.current]

end Unchanged

def Keeps (operation : Operation α) : Prop :=
  ∀ (service : Service) (interrupts : Interrupts), service.Unchanged (service.run interrupts operation).2

namespace Keeps

theorem pure (value : α) : Keeps (Pure.pure value) := fun service _ => .refl service

theorem fail (error : Error) (next : α → Operation β) : Keeps (MonadExcept.throw error >>= next) :=
  fun service _ => .refl service

theorem bind {operation : Operation α} {next : α → Operation β} (keeps : Keeps operation)
    (continues : ∀ value, Keeps (next value)) : Keeps (operation >>= next) := by
  intro service interrupts
  let between : Service := (service.run interrupts operation).2
  have kept : service.Unchanged between := keeps service interrupts
  cases outcome : (service.run interrupts operation).1 with
  | error error =>
    have ran : service.run interrupts operation = (.error error, between) := Prod.ext outcome rfl
    rw [run_bind_error ran]
    exact kept
  | ok value =>
    have ran : service.run interrupts operation = (.ok value, between) := Prod.ext outcome rfl
    rw [run_bind_ok ran]
    exact kept.trans (continues value between interrupts)

theorem available : Keeps requireAvailable := by
  intro service interrupts
  rw [run_requireAvailable]
  exact .refl service

theorem timestamp : Keeps timestamp := by
  intro service interrupts
  have store : (service.run interrupts Service.timestamp).2.store = service.engine.timestamp.2.storage.store := rfl
  rcases Engine.timestamp_cases service.engine with same | moved
  · have kept : (service.run interrupts Service.timestamp).2.store = service.store := store.trans same
    exact ⟨congrArg Store.active kept, congrArg Store.history kept⟩
  · have ticked : (service.run interrupts Service.timestamp).2.store = service.store.timestamp.2 :=
      store.trans moved
    obtain ⟨history, active⟩ := Store.timestamp_frame service.store
    constructor
    · rw [ticked, active]
    · rw [ticked, history]

theorem takeTimestamps (count : Nat) : Keeps (takeTimestamps count) := by
  induction count with
  | zero => exact pure _
  | succ count ih => exact bind timestamp fun _ => bind ih fun _ => pure _

theorem timestamps (count : UInt64) : Keeps (timestamps count) := by
  refine bind available fun _ => ?_
  dsimp only
  split
  · exact fail _ _
  · split
    · exact fail _ _
    · exact bind (takeTimestamps _) fun _ => pure _

theorem request (asked : Request) (only : Only Nothing asked.action) : Keeps asked.operation := by
  intro service interrupts
  have settles := asked.operation_runs.settles service interrupts
  refine ⟨settles.active, ?_⟩
  cases outcome : (service.run interrupts asked.operation).1 with
  | error error => exact settles.failed error outcome
  | ok value =>
    have silent := (Engine.run_ensures service.engine interrupts (only.reads _ _)).2 value
      (asked.operation_runs.ok_of_ok outcome)
    refine (settles.done value outcome).idle ?_
    rw [silent]
    rfl

end Keeps

end Service

namespace Http

open Handling

variable {α β : Type}

def Response.Successful (response : Response) : Prop := 200 ≤ response.status ∧ response.status < 300

instance (response : Response) : Decidable response.Successful :=
  inferInstanceAs (Decidable (_ ∧ _))

theorem not_successful_rejection (rejection : Rejection) : ¬ rejection.response.Successful := by
  cases rejection with
  | badRequest message => exact fun successful => absurd successful.2 (by decide : ¬ 400 < 300)
  | malformedParameter name => exact fun successful => absurd successful.2 (by decide : ¬ 400 < 300)
  | failed error =>
    change ¬ (200 ≤ error.kind.status ∧ error.kind.status < 300)
    cases error.kind <;> decide

theorem successful_accepted : accepted.Successful := by decide

theorem successful_answered (payload : Json) : (answered payload).Successful := by
  change 200 ≤ 200 ∧ 200 < 300
  decide

theorem successful_withoutBody (method : Method) (response : Response) :
    (withoutBody method response).Successful ↔ response.Successful := by
  rw [withoutBody]
  split <;> rfl

def Parses (handling : Handling α) : Prop :=
  ∀ call, ∃ result, ∀ service, handling call service = (result, service)

section

variable {handling : Handling α} {next : α → Handling β} {call : Call} {service later : Service}

theorem bind_ok {value : α} (ran : handling call service = (.ok value, later)) :
    (handling >>= next) call service = next value call later := by
  simp only [bind, ReaderT.bind, ExceptT.bind, ExceptT.mk, StateT.bind, ran]
  rfl

theorem bind_error {rejection : Rejection} (ran : handling call service = (.error rejection, later)) :
    (handling >>= next) call service = (.error rejection, later) := by
  simp only [bind, ReaderT.bind, ExceptT.bind, ExceptT.mk, StateT.bind, ran]
  rfl

end

namespace Parses

theorem pure (value : α) : Parses (Pure.pure value) := fun _ => ⟨.ok value, fun _ => rfl⟩

theorem throw (rejection : Rejection) : Parses (throw rejection : Handling α) :=
  fun _ => ⟨.error rejection, fun _ => rfl⟩

theorem read : Parses (MonadReader.read : Handling Call) := fun call => ⟨.ok call, fun _ => rfl⟩

theorem lift (outcome : Except Rejection α) : Parses (liftM outcome) := by
  intro call
  cases outcome with
  | error rejection => exact ⟨.error rejection, fun _ => rfl⟩
  | ok value => exact ⟨.ok value, fun _ => rfl⟩

theorem bind {handling : Handling α} {next : α → Handling β} (parses : Parses handling)
    (continues : ∀ value, Parses (next value)) : Parses (handling >>= next) := by
  intro call
  obtain ⟨rejection | value, ran⟩ := parses call
  · exact ⟨.error rejection, fun service => bind_error (ran service)⟩
  · obtain ⟨result, continued⟩ := continues value call
    exact ⟨result, fun service => (bind_ok (ran service)).trans (continued service)⟩

theorem parameter (name : String) : Parses (parameter name) := bind read fun _ => pure _

theorem id (name : String) : Parses (Handling.id name) := bind (parameter name) fun _ => lift _

theorem size (name : String) : Parses (size name) := bind (parameter name) fun _ => lift _

theorem query? (name : String) : Parses (query? name) := bind read fun _ => pure _

theorem simple : Parses simple := bind (query? _) fun _ => pure _

theorem count : Parses count := by
  refine bind (query? _) fun raw => ?_
  cases raw with
  | none => exact pure _
  | some raw =>
    dsimp only
    split
    · exact pure _
    · exact throw _

theorem generation : Parses generation := by
  refine bind (query? _) fun raw => ?_
  cases raw with
  | none => exact pure _
  | some raw => exact lift _

theorem body (α : Type) [Wire α] : Parses (body α) := by
  refine bind read fun call => ?_
  split
  · exact pure _
  · exact throw _

theorem location : Parses location :=
  bind (parameter _) fun _ => bind (parameter _) fun _ => pure _

end Parses

theorem handle_eq (handler : Handler) (call : Call) (service : Service) :
    handle handler call service =
      (match (handler call service).1 with
        | .ok response => response
        | .error rejection => rejection.response, (handler call service).2) := by
  have ran : handler call service = ((handler call service).1, (handler call service).2) := rfl
  simp only [handle, ExceptT.run, bind, StateT.bind]
  rw [ran]
  cases (handler call service).1 <;> rfl

/-- Whatever the state of a service that is open, the answer is made of what this request to it comes to. -/
def Performs (interrupts : Interrupts) (answering : StateM Service Response) (asked : Service.Request) : Prop :=
  ∃ reply : Except Error asked.Answer → Response, ∀ service : Service, service.isAvailable = true →
    answering service =
      (reply (service.run interrupts asked.operation).1, (service.run interrupts asked.operation).2)

inductive Outcome (writing : Bool) (interrupts : Interrupts) (answering : StateM Service Response)
    (service : Service) : Prop
  | refused (unsuccessful : ¬ (answering service).1.Successful) (unchanged : service.Unchanged (answering service).2)
  | read (reading : writing = false) (unchanged : service.Unchanged (answering service).2)
  | written (may : writing = true) (successful : (answering service).1.Successful) (asked : Service.Request)
    (performs : Performs interrupts answering asked)
    (active : (answering service).2.store.active = service.store.active)
    (follows : service.store.Follows (answering service).2.store (service.engine.buffered interrupts asked.action))

def Ends (writing : Bool) (handler : Handler) : Prop :=
  ∀ (call : Call) (service : Service), Outcome writing call.interrupts (handle handler call) service

namespace Ends

variable {writing : Bool}

theorem bind {handling : Handling α} {next : α → Handler} (parses : Parses handling)
    (ends : ∀ value, Ends writing (next value)) : Ends writing (handling >>= next) := by
  intro call service
  obtain ⟨rejection | value, ran⟩ := parses call
  · have same : handle (handling >>= next) call service = (rejection.response, service) := by
      rw [handle_eq, bind_error (ran service)]
    refine .refused ?_ ?_ <;> rw [same]
    · exact not_successful_rejection rejection
    · exact .refl service
  · have same : handle (handling >>= next) call = handle (next value) call := by
      funext other
      rw [handle_eq, bind_ok (ran other), ← handle_eq]
    rw [same]
    exact ends value call service

def replied (reply : α → Response) : Except Error α → Response
  | .ok value => reply value
  | .error error => (Rejection.failed error).response

theorem handle_ask (operation : Service.Operation α) (reply : α → Response) (call : Call) (service : Service) :
    handle (ask operation >>= fun value => pure (reply value)) call service =
      (replied reply (service.run call.interrupts operation).1, (service.run call.interrupts operation).2) := by
  let later : Service := (service.run call.interrupts operation).2
  have asked : ask operation call service =
      ((service.run call.interrupts operation).1.mapError .failed, later) := rfl
  cases outcome : (service.run call.interrupts operation).1 with
  | ok value =>
    rw [outcome] at asked
    rw [handle_eq, bind_ok asked]
    rfl
  | error error =>
    rw [outcome] at asked
    rw [handle_eq, bind_error asked]
    rfl

theorem reads {operation : Service.Operation α} (keeps : Service.Keeps operation) (reply : α → Response) :
    Ends false (ask operation >>= fun value => pure (reply value)) := by
  intro call service
  refine .read rfl ?_
  rw [handle_ask]
  exact keeps service call.interrupts

theorem writes (asked : Service.Request) {reply : asked.Answer → Response}
    (successful : ∀ answer, (reply answer).Successful) :
    Ends true (ask asked.operation >>= fun answer => pure (reply answer)) := by
  intro call service
  have settles := asked.operation_atomic service call.interrupts
  have ended := handle_ask asked.operation reply call service
  cases outcome : (service.run call.interrupts asked.operation).1 with
  | ok value =>
    rw [outcome] at ended
    refine .written rfl ?_ asked ⟨replied reply, fun other _ => handle_ask _ _ _ other⟩ ?_ ?_ <;> rw [ended]
    · exact successful value
    · exact settles.active
    · exact settles.done value outcome
  | error error =>
    rw [outcome] at ended
    refine .refused ?_ ?_ <;> rw [ended]
    · exact not_successful_rejection _
    · exact ⟨settles.active, settles.failed error outcome⟩

theorem read (asked : Service.Request) (only : Only Nothing asked.action) (reply : asked.Answer → Response) :
    Ends false (ask asked.operation >>= fun answer => pure (reply answer)) :=
  reads (.request asked only) reply

theorem performed (asked : Service.Request) : Ends true (perform asked.operation) :=
  writes asked fun _ => successful_accepted

end Ends

def Method.writes : Method → Bool
  | .get | .head => false
  | _ => true

theorem Method.writes_eq_false {method : Method} : method.writes = false ↔ method = .get ∨ method = .head := by
  cases method <;> simp [Method.writes]

def Known (writing : Bool) (handler : Option Handler) : Prop := ∀ other ∈ handler, Ends writing other

theorem Known.of_some {writing : Bool} {handler : Handler} (ends : Ends writing handler) :
    Known writing (some handler) := by
  rintro _ ⟨⟩
  exact ends

structure Endpoints.Safe (endpoints : Endpoints) : Prop where
  get : Known false endpoints.get := by nofun
  put : Known true endpoints.put := by nofun
  post : Known true endpoints.post := by nofun
  delete : Known true endpoints.delete := by nofun

namespace Endpoints.Safe

variable {endpoints : Endpoints}

theorem timestamps : Endpoints.Safe { get := some timestamps } where
  get := .of_some <| .bind .count fun count => .reads (.timestamps count) _

theorem blockMeta : blockMeta.Safe where
  get := .of_some <| .bind (.id _) fun id => .read (.block id) (Service.only_loadBlock id) _
  put := .of_some <| .bind (.id _) fun id => .bind (.body _) fun info => .performed (.putBlockMeta id info)
  delete := .of_some <| .bind (.id _) fun id => .performed (.deleteBlockMeta id)

theorem blockStorage : blockStorage.Safe where
  get := .of_some <| .bind (.id _) fun id => .read (.blockStorage id) (.find BlockStorage _) _

theorem replica : replica.Safe where
  put := .of_some <| .bind (.id _) fun id => .bind .location fun location =>
    .performed (.addBlockStorage id location)
  delete := .of_some <| .bind (.id _) fun id => .bind .location fun location =>
    .performed (.removeBlockStorage id location)

theorem file : file.Safe where
  get := .of_some <| .bind (.id _) fun id => .bind .simple fun simple =>
    .read (.file id simple) (Service.only_loadFile id simple) _
  put := .of_some <| .bind (.id _) fun id => .bind (.body _) fun node => .performed (.putFile id node)
  post := .of_some <| .bind (.id _) fun id => .bind (.body _) fun content => .performed (.updateFile id content)
  delete := .of_some <| .bind (.id _) fun id => .performed (.deleteFile id)

theorem fileBlock : fileBlock.Safe where
  get := .of_some <| .bind (.id _) fun file => .bind (.id _) fun block =>
    .read (.fileBlock file block) (Chain.only_block file block) _
  put := .of_some <| .bind (.id _) fun file => .bind (.id _) fun block => .bind .generation fun generation =>
    .performed (.putFileBlock file block generation)
  post := .of_some <| .bind (.id _) fun file => .bind (.id _) fun block => .bind (.body _) fun content =>
    .writes (.updateFileBlock file block (replicated content)) fun _ => successful_answered _
  delete := .of_some <| .bind (.id _) fun file => .bind (.id _) fun block =>
    .performed (.deleteFileBlock file block)

theorem truncation : truncation.Safe where
  put := .of_some <| .bind (.id _) fun file => .bind (.size _) fun size => .performed (.truncateFile file size)

theorem directory : directory.Safe where
  get := .of_some <| .bind (.id _) fun id => .read (.directory id) (Tree.only_inode id) _
  put := .of_some <| .bind (.id _) fun id => .bind (.body _) fun node => .performed (.putDirectory id node)
  post := .of_some <| .bind (.id _) fun id => .bind (.body _) fun node => .performed (.updateDirectory id node)
  delete := .of_some <| .bind (.id _) fun id => .performed (.deleteDirectory id)

theorem child : child.Safe where
  get := .of_some <| .bind (.id _) fun parent => .bind (.parameter _) fun name =>
    .read (.child parent name) (Tree.only_child parent name true) _
  put := .of_some <| .bind (.id _) fun parent => .bind (.parameter _) fun name => .bind (.body _) fun node =>
    .performed (.putChild parent name node)
  delete := .of_some <| .bind (.id _) fun parent => .bind (.parameter _) fun name =>
    .performed (.deleteChild parent name)

theorem children : children.Safe where
  get := .of_some <| .bind (.id _) fun id => .bind .simple fun simple =>
    .read (.children id simple) (Tree.only_children id simple) _

theorem parent : parent.Safe where
  put := .of_some <| .bind (.id _) fun id => .bind (.id _) fun source => .bind (.id _) fun destination =>
    .performed (.reparent id source destination)

theorem ends (safe : endpoints.Safe) {method : Method} {handler : Handler}
    (found : endpoints.handler? method = some handler) : Ends method.writes handler := by
  cases method with
  | get => exact safe.get handler found
  | head => exact safe.get handler found
  | put => exact safe.put handler found
  | post => exact safe.post handler found
  | delete => exact safe.delete handler found
  | other name => cases found

end Endpoints.Safe

theorem safe_of_route? {segments : List Bytes} {parameters : List (String × Bytes)} {endpoints : Endpoints}
    (routed : route? segments = some (parameters, endpoints)) : endpoints.Safe := by
  obtain ⟨route, listed, matched⟩ := List.exists_of_findSome?_eq_some routed
  obtain ⟨_, _, same⟩ := Option.map_eq_some_iff.1 matched
  cases same
  have all : ∀ route ∈ routes, route.2.Safe := by
    simp only [routes, List.forall_mem_cons, List.not_mem_nil, false_implies, implies_true, and_true]
    exact ⟨.timestamps, .blockMeta, .blockStorage, .replica, .file, .fileBlock, .truncation, .directory, .child,
      .children, .parent⟩
  exact all _ listed

namespace Outcome

variable {writing : Bool} {interrupts : Interrupts} {service : Service} {answering : StateM Service Response}

theorem unchanged_of_unsuccessful (outcome : Outcome writing interrupts answering service)
    (unsuccessful : ¬ (answering service).1.Successful) : service.Unchanged (answering service).2 := by
  cases outcome with
  | refused _ unchanged => exact unchanged
  | read _ unchanged => exact unchanged
  | written _ successful => exact absurd successful unsuccessful

theorem withoutBody (outcome : Outcome writing interrupts answering service) (method : Method)
    (opens : service.isAvailable = true) {without : StateM Service Response}
    (same : ∀ other : Service, other.isAvailable = true →
      without other = (Http.withoutBody method (answering other).1, (answering other).2)) :
    Outcome writing interrupts without service := by
  have ended := same service opens
  have later : (without service).2 = (answering service).2 := by rw [ended]
  have successful : (without service).1.Successful ↔ (answering service).1.Successful := by
    rw [ended]
    exact successful_withoutBody method _
  cases outcome with
  | refused unsuccessful unchanged => exact .refused (mt successful.1 unsuccessful) (later ▸ unchanged)
  | read reading unchanged => exact .read reading (later ▸ unchanged)
  | written may succeeded asked performs active follows =>
    obtain ⟨reply, performs⟩ := performs
    refine .written may (successful.2 succeeded) asked ⟨fun given => Http.withoutBody method (reply given), ?_⟩
      (later ▸ active) (later ▸ follows)
    intro other available
    rw [same other available, performs other available]

end Outcome

section

variable (interrupts : Interrupts) (complaint : String) (request : Request)
  (parameters : List (String × Bytes)) (endpoints : Endpoints) (service : Service)

theorem respondAt_unknown (unknown : endpoints.handler? request.method = none) :
    respondAt interrupts complaint request parameters endpoints service =
      (if service.isAvailable then wrongMethod else unavailable, service) := by
  simp only [respondAt, bind, StateT.bind, unknown]
  rfl

theorem respondAt_known {handler : Handler} (known : endpoints.handler? request.method = some handler) :
    respondAt interrupts complaint request parameters endpoints service =
      let ended : Response × Service :=
        if service.isAvailable then
          match decodeParameters parameters with
          | .error rejection => (rejection.response, service)
          | .ok parameters => handle handler { parameters, request, interrupts, complaint } service
        else (unavailable, service)
      (withoutBody request.method ended.1, ended.2) := by
  simp only [respondAt, bind, StateT.bind, known, get, getThe, MonadStateOf.get, StateT.get, pure]
  cases service.isAvailable with
  | false => rfl
  | true => cases decodeParameters parameters <;> rfl

end

theorem respondAt_outcome {endpoints : Endpoints} (safe : endpoints.Safe) (interrupts : Interrupts)
    (complaint : String) (request : Request) (parameters : List (String × Bytes)) (service : Service) :
    Outcome request.method.writes interrupts (respondAt interrupts complaint request parameters endpoints) service := by
  cases known : endpoints.handler? request.method with
  | none =>
    have same := respondAt_unknown interrupts complaint request parameters endpoints service known
    refine .refused ?_ ?_ <;> rw [same]
    · dsimp only
      split
      · decide
      · exact not_successful_rejection _
    · exact .refl service
  | some handler =>
    have same := respondAt_known interrupts complaint request parameters endpoints
    cases opens : service.isAvailable with
    | false =>
      refine .refused ?_ ?_ <;> rw [same service known, opens]
      · exact mt (successful_withoutBody _ _).1 (not_successful_rejection _)
      · exact .refl service
    | true =>
      cases decoded : decodeParameters parameters with
      | error rejection =>
        refine .refused ?_ ?_ <;> rw [same service known, opens, decoded]
        · exact mt (successful_withoutBody _ _).1 (not_successful_rejection _)
        · exact .refl service
      | ok parameters =>
        refine (safe.ends known { parameters, request, interrupts, complaint } service).withoutBody request.method
          opens fun other available => ?_
        rw [same other known, available, decoded]
        rfl

theorem respondAt_closed {service : Service} (closed : service.isAvailable = false) (interrupts : Interrupts)
    (complaint : String) (request : Request) (parameters : List (String × Bytes)) (endpoints : Endpoints) :
    let ended := respondAt interrupts complaint request parameters endpoints service
    ended.1.status = 503 ∧ ended.2 = service := by
  intro ended
  cases known : endpoints.handler? request.method with
  | none =>
    have equal : ended = _ := respondAt_unknown interrupts complaint request parameters endpoints service known
    rw [equal, closed]
    exact ⟨rfl, rfl⟩
  | some handler =>
    have equal : ended = _ := respondAt_known interrupts complaint request parameters endpoints service known
    rw [equal, closed]
    refine ⟨?_, rfl⟩
    dsimp only [Bool.false_eq_true, if_false]
    rw [withoutBody]
    split <;> rfl

def Request.Registered (request : Request) : Prop :=
  ∃ rest, Bytes.splitOn 0x2f request.path = [] :: Utf8.encode "api" :: rest ∧ (route? rest).isSome

structure Aside (method : Method) (answering : StateM Service Response) : Prop where
  kept : ∀ service, (answering service).2 = service
  reads : ∀ service, (answering service).1.Successful → method.writes = false

theorem Aside.refused (method : Method) {response : Response} (unsuccessful : ¬ response.Successful) :
    Aside method (pure response) :=
  ⟨fun _ => rfl, fun _ successful => absurd successful unsuccessful⟩

theorem aside_notFound (method : Method) : Aside method (pure notFound) := .refused method (by decide)

theorem aside_health (method : Method) : Aside method (respondHealth method) := by
  rw [respondHealth]
  split
  · rename_i fetches
    exact ⟨fun _ => rfl, fun _ _ => Method.writes_eq_false.2 fetches⟩
  · exact .refused method (by decide)

theorem respond_registered {request : Request} (registered : request.Registered) :
    ∃ parameters endpoints, endpoints.Safe ∧ ∀ interrupts complaint,
      respond interrupts complaint request = respondAt interrupts complaint request parameters endpoints := by
  obtain ⟨rest, path, found⟩ := registered
  obtain ⟨⟨parameters, endpoints⟩, routed⟩ := Option.isSome_iff_exists.1 found
  have other : Utf8.encode "api" ≠ Utf8.encode "health" := by decide
  refine ⟨parameters, endpoints, safe_of_route? routed, fun interrupts complaint => ?_⟩
  simp only [respond, path, other, false_and, if_false, if_true, routed]

theorem respond_unregistered {request : Request} (unregistered : ¬ request.Registered)
    (interrupts : Interrupts) (complaint : String) : Aside request.method (respond interrupts complaint request) := by
  rw [respond]
  split
  · rename_i first rest path
    split
    · exact aside_health _
    · split
      · rename_i api
        split
        · rename_i parameters endpoints routed
          refine absurd ⟨rest, api ▸ path, ?_⟩ unregistered
          rw [routed]
          rfl
        · exact aside_notFound _
      · exact aside_notFound _
  · exact aside_notFound _

/-- The store may be used past the interface too. -/
inductive Event where
  | request (interrupts : Interrupts) (complaint : String) (request : Request)
  | close
  | engine (engine : Engine)

def act (service : Service) : Event → Service
  | .request interrupts complaint request => (respond interrupts complaint request service).2
  | .close => service.close
  | .engine engine => { service with engine }

def run (service : Service) (events : List Event) : Service := events.foldl act service

theorem respond_closed {service : Service} (closed : service.isAvailable = false) (interrupts : Interrupts)
    (complaint : String) (request : Request) :
    (request.Registered → (respond interrupts complaint request service).1.status = 503) ∧
      (respond interrupts complaint request service).2 = service := by
  by_cases registered : request.Registered
  · obtain ⟨parameters, endpoints, _, same⟩ := respond_registered registered
    obtain ⟨status, kept⟩ := respondAt_closed closed interrupts complaint request parameters endpoints
    rw [same]
    exact ⟨fun _ => status, kept⟩
  · exact ⟨fun known => absurd known registered, (respond_unregistered registered interrupts complaint).kept service⟩

theorem closed_act {service : Service} (closed : service.isAvailable = false) (event : Event) :
    (act service event).isAvailable = false := by
  cases event with
  | request interrupts complaint request =>
    rw [act, (respond_closed closed interrupts complaint request).2]
    exact closed
  | close => rfl
  | engine engine => exact closed

theorem closed_run {service : Service} (closed : service.isAvailable = false) (events : List Event) :
    (run service events).isAvailable = false := by
  induction events generalizing service with
  | nil => exact closed
  | cons event rest ih => exact ih (closed_act closed event)

theorem respond_outcome (interrupts : Interrupts) (complaint : String) (request : Request) (service : Service) :
    Outcome request.method.writes interrupts (respond interrupts complaint request) service := by
  by_cases registered : request.Registered
  · obtain ⟨parameters, endpoints, safe, same⟩ := respond_registered registered
    rw [same]
    exact respondAt_outcome safe interrupts complaint request parameters service
  · have aside := respond_unregistered registered interrupts complaint
    have unchanged : service.Unchanged (respond interrupts complaint request service).2 := by
      rw [aside.kept]
      exact .refl service
    by_cases successful : (respond interrupts complaint request service).1.Successful
    · exact .read (aside.reads service successful) unchanged
    · exact .refused successful unchanged

theorem requests_all_or_nothing (service : Service) (interrupts : Interrupts) (complaint : String)
    (request : Request) :
    let response := (respond interrupts complaint request service).1
    let later := (respond interrupts complaint request service).2
    (¬ response.Successful → service.Unchanged later) ∧
    (request.method = .get ∨ request.method = .head → service.Unchanged later) ∧
    (response.Successful → request.method ≠ .get → request.method ≠ .head →
      ∃ asked : Service.Request, Performs interrupts (respond interrupts complaint request) asked ∧
        later.store.active = service.store.active ∧
        service.store.Follows later.store (service.engine.buffered interrupts asked.action)) ∧
    ∀ before after : List Event, request.Registered →
      let closed := run service (before ++ .close :: after)
      (respond interrupts complaint request closed).1.status = 503 ∧
        (respond interrupts complaint request closed).2 = closed := by
  intro response later
  have outcome := respond_outcome interrupts complaint request service
  refine ⟨outcome.unchanged_of_unsuccessful, ?_, ?_, ?_⟩
  · intro fetches
    cases outcome with
    | refused _ unchanged => exact unchanged
    | read _ unchanged => exact unchanged
    | written may =>
      rw [Method.writes_eq_false.2 fetches] at may
      cases may
  · intro successful notGet notHead
    cases outcome with
    | refused unsuccessful => exact absurd successful unsuccessful
    | read reads => exact absurd (Method.writes_eq_false.1 reads) (not_or.2 ⟨notGet, notHead⟩)
    | written _ _ asked performs active follows => exact ⟨asked, performs, active, follows⟩
  · intro before after registered closed
    have unavailable : closed.isAvailable = false := by
      rw [show closed = run (run service before).close after by simp [closed, run]; rfl]
      exact closed_run rfl after
    obtain ⟨status, kept⟩ := respond_closed unavailable interrupts complaint request
    exact ⟨status registered, kept⟩

-- A replica is added, a directory without a number is not; timestamps move nothing but the clock.
theorem requests_all_or_nothing_closed :
    let service := Service.ofStore {}
    let adding := Request.ofTarget .put "/api/block/storage/7/a/b" []
    let mistaken := Request.ofTarget .put "/api/directory/none" []
    let asking := Request.ofTarget .get "/api/tso?count=3" []
    let added := respond .never "" adding service
    let asked := respond .never "" asking service
    let closed := run service [.request .never "" adding, .close, .request .never "" asking]
    (∃ asked : Service.Request, Performs .never (respond .never "" adding) asked ∧
      service.store.Follows added.2.store (service.engine.buffered .never asked.action)) ∧
    added.2.store.history.entries.length = 1 ∧
    service.Unchanged (respond .never "" mistaken service).2 ∧
    service.Unchanged asked.2 ∧ asked.2.store.clock = 3 ∧
    (respond .never "" asking closed).1.status = 503 ∧ (respond .never "" asking closed).2 = closed := by
  intro service adding mistaken asking added asked closed
  obtain ⟨_, _, written, _⟩ := requests_all_or_nothing service .never "" adding
  obtain ⟨refused, _, _, _⟩ := requests_all_or_nothing service .never "" mistaken
  obtain ⟨_, fetched, _, late⟩ := requests_all_or_nothing service .never "" asking
  obtain ⟨request, performs, _, follows⟩ := written (by decide +kernel) (by decide) (by decide)
  have registered : asking.Registered := ⟨[Utf8.encode "tso"], by decide +kernel, by decide +kernel⟩
  have after := late [.request .never "" adding] [.request .never "" asking] registered
  exact ⟨⟨request, performs, follows⟩, by decide +kernel, refused (by decide +kernel), fetched (.inl rfl),
    by decide +kernel, after⟩

end Http

end FsMeta
