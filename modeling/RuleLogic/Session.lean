import RuleLogic.Evaluator
import RuleLogic.Sharing

/-!
# Sessions

A session holds evaluators under names, each with the sink that its log goes to.  Requests create
and copy evaluators, add operators to them and ask them.  A copy shares the registry of its source
until one of them is given another operator.

    (s.handle q).1    is the session behind the request, and    (s.handle q).2    the answer
-/

namespace RuleLogic

/-- An evaluator, by the address of its registry, and the sink that receives what it logs. -/
structure Member where
  address : Nat
  sink : String
deriving DecidableEq

/-- The registries of a session, and what its names stand for. -/
structure Session where
  layout : Layout
  heap : Heap
  members : List (String × Member)

namespace Session

/-! ## Requests -/

/-- What is asked of an evaluator. -/
inductive Action where
  /-- Copy the evaluator to another name. -/
  | copy (target : String)
  /-- Send the log to another sink. -/
  | redirect (sink : String)
  | register (f : CustomOperator)
  | names
  | find (name : String)
  /-- Call a custom operator with values, whatever its arity. -/
  | call (name : String) (operands : List Value)
  | eval (rule data : Value)
  | validate (rule : Value)
  | known

inductive Request where
  /-- Make an evaluator, with operators registered one after the other and a sink of its name. -/
  | create (name : String) (operators : List CustomOperator)
  | ask (name : String) (action : Action)

/-- What a request is answered with. -/
inductive Reply where
  | done
  | noEvaluator
  | names (names : List String) (empty : Bool)
  | found (f : Option CustomOperator)
  | called (result : Option (Except EvalError Value))
  | evaluated (result : Except EvalError Value)
  | report (r : Report)
  | known (names : List String)

/-- A reply, and what reached the sinks meanwhile. -/
structure Response where
  reply : Reply
  log : List (String × Value)

/-! ## Answers -/

def silent (reply : Reply) : Response := ⟨reply, []⟩

/-- What an evaluator with a sink answers. -/
def respond (ev : Evaluator) (sink : String) : Action → Response
  | .copy _ | .redirect _ | .register _ => silent .done
  | .names => silent (.names (Names.sort ev.registry.names) ev.registry.isEmpty)
  | .find operator => silent (.found (ev.registry.find? operator))
  | .call operator operands =>
    silent (.called ((ev.registry.find? operator).map fun f => f.call operands))
  | .eval rule data =>
    let outcome := ev.evaluate rule data
    ⟨.evaluated outcome.result, outcome.log.map fun v => (sink, v)⟩
  | .validate rule => silent (.report (ev.validate rule))
  | .known => silent (.known ev.allowlist.known)

/-! ## Handling -/

/-- A session without evaluators. -/
def start (layout : Layout) : Session := ⟨layout, .empty, []⟩

def empty : Session := start .newestFirst

def member? (s : Session) (name : String) : Option Member := s.members.lookup name

def evaluator (s : Session) (m : Member) : Evaluator := ⟨s.heap.registry m.address⟩

/-- The session with a name standing for a member that takes over what the name stood for. -/
def put (s : Session) (name : String) (m : Member) : Session :=
  { s with members := (name, m) :: s.members.filter (·.1 != name) }

/-- The session with a name standing for a member; what it stood for before is dropped. -/
def set (s : Session) (name : String) (m : Member) : Session :=
  match s.member? name with
  | some old => { s with heap := s.heap.release old.address }.put name m
  | none => s.put name m

/-- What an evaluator is told to do. -/
def perform (s : Session) (name : String) (m : Member) : Action → Session
  | .copy target => { s with heap := s.heap.share m.address }.set target m
  | .redirect sink => s.put name { m with sink := sink }
  | .register f =>
    let (heap, address) := s.heap.register s.layout m.address f
    { s with heap := heap }.put name { m with address := address }
  | _ => s

/-- Answer a request. -/
def handle (s : Session) : Request → Session × Response
  | .create name operators =>
    let (heap, address) := s.heap.create s.layout operators
    ({ s with heap := heap }.set name ⟨address, name⟩, silent .done)
  | .ask name action =>
    match s.member? name with
    | some m => (s.perform name m action, respond (s.evaluator m) m.sink action)
    | none => (s, silent .noEvaluator)

/-- Answer requests one after the other. -/
def handleAll (s : Session) : List Request → List Response
  | [] => []
  | q :: rest =>
    let (next, response) := s.handle q
    response :: next.handleAll rest

end Session

end RuleLogic
