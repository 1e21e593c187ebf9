import Wiring.Construction.Visit

set_option autoImplicit false

namespace Wiring

inductive Argument where
  | resolved (node : Nat)
  | pending
  | failed
  deriving DecidableEq, Repr

def Argument.node? : Argument → Option Nat
  | .resolved i => some i
  | _ => none

structure ChildSite where
  accessor : ChildAccessor
  args : List (Key × Argument)
  deriving DecidableEq, Repr

/-- A child is listed once all of its arguments are there. -/
def ChildSite.draft? (c : ChildSite) : Option DraftChild :=
  (c.args.mapM fun (e : Key × Argument) => e.2.node?.map (e.1, ·)).map fun args =>
    ⟨c.accessor.name, c.accessor.injector, args⟩

/-- An argument that is left to the ancestors. -/
structure Requirement where
  child : Nat
  argument : Nat
  key : Key
  deriving DecidableEq, Repr

structure Site where
  injector : Injector
  lookup : Lookup
  store : Store := .empty
  providers : List (String × Key × Nat) := []
  builders : List DraftBuilder := []
  children : List ChildSite := []
  exports : Table Key Nat := .empty
  diagnostics : List Diagnostic := []
  deriving DecidableEq

def Completion.binding : Completion → BuilderBinding
  | .explicit d => .explicit d.specification d.value.name
  | .auto t => .auto (t.required.map (·.name))

namespace Site

def id (s : Site) : InjectorId := s.injector.id

def start (c : Catalog) (autoBinding : Bool) (i : Injector) : Except (List Diagnostic) Site :=
  match Registry.register (c.specificationClosure i) (c.interfacesOf i) with
  | .ok registry => .ok { injector := i, lookup := ⟨c, registry, autoBinding⟩ }
  | .error es => .error (es.map fun e => .of i.id e [] i.location)

def report (s : Site) (ds : List Diagnostic) : Site := { s with diagnostics := s.diagnostics ++ ds }

def walk (s : Site) (k : Key) : Outcome × Site :=
  let (outcome, store) := s.lookup.walk k s.store
  (outcome, { s with store })

def request (s : Site) (requestedBy : Option Key) (location : Option Location) (k : Key) :
    Option Nat × Site :=
  let (outcome, s) := s.walk k
  (outcome.node?,
    s.report (outcome.report?.toList.map fun r => r.diagnostic s.id requestedBy location))

def addProvider (s : Site) (m : ProviderMethod) : Site :=
  let (node, s) := s.request none m.location m.key
  match node with
  | some i => { s with providers := s.providers ++ [(m.name, m.key, i)] }
  | none => s

def requestAll (s : Site) (requestedBy : Option Key) (location : Option Location) :
    List Key → List Nat × Site
  | [] => ([], s)
  | k :: ks =>
    let (node, s) := s.request requestedBy location k
    let (nodes, s) := s.requestAll requestedBy location ks
    (node.toList ++ nodes, s)

def addBuilder (s : Site) (m : BuilderMethod) : Site :=
  match s.lookup.completion m.key with
  | .error e => s.report [.of s.id e [m.key] m.location]
  | .ok completion =>
    let (args, s) :=
      s.requestAll (some m.key) (completion.location <|> m.location) completion.dependencies
    if args.length = completion.dependencies.length then
      { s with builders := s.builders ++ [⟨m.name, m.key, completion.binding, args⟩] }
    else s

def requiredBy (c : Catalog) (child : InjectorId) : List Key :=
  match c.injectors.get? child with
  | none => []
  | some i => ((c.interfacesOf i).flatMap (·.keys)).eraseDups

/-- One argument of a child. A key that this injector lacks altogether is left to the ancestors,
however often it is required. -/
def addArgument (s : Site) (missing : List Key) (location : Option Location) (k : Key) :
    Argument × List Key × Site :=
  let (outcome, s) := s.walk k
  match outcome with
  | .node i => (.resolved i, missing, s)
  | .failed r =>
    if (r.map Report.rootMissing).getD false || missing.contains k then
      (.pending, k :: missing, s)
    else
      (.failed, missing, s.report (r.toList.map fun r => r.diagnostic s.id none location))

def addArguments (s : Site) (missing : List Key) (location : Option Location) :
    List Key → List (Key × Argument) × List Key × Site
  | [] => ([], missing, s)
  | k :: ks =>
    let (a, missing, s) := s.addArgument missing location k
    let (as, missing, s) := s.addArguments missing location ks
    ((k, a) :: as, missing, s)

def addChildren (s : Site) (missing : List Key) : List ChildAccessor → Site
  | [] => s
  | a :: as =>
    let (args, missing, s) :=
      s.addArguments missing a.location (requiredBy s.lookup.catalog a.injector)
    addChildren { s with children := s.children ++ [⟨a, args⟩] } missing as

def buildLocal (s : Site) : Site :=
  let s := s.injector.providers.foldl addProvider s
  let s := s.injector.builders.foldl addBuilder s
  s.addChildren [] s.injector.children

def pending (s : Site) : List Requirement :=
  s.children.zipIdx.flatMap fun (child, c) =>
    child.args.zipIdx.filterMap fun (e, i) =>
      if e.2 = .pending then some ⟨c, i, e.1⟩ else none

def setArgument (s : Site) (r : Requirement) (a : Argument) : Site :=
  { s with
    children := s.children.modify r.child fun child =>
      { child with args := child.args.modify r.argument fun e => (e.1, a) } }

def inherit (s : Site) (k : Key) : Nat × Site :=
  let (i, store) := s.store.inherit k
  (i, { s with store })

def satisfy (s : Site) (r : Requirement) : Site :=
  let (i, s) := s.inherit r.key
  s.setArgument r (.resolved i)

def refuse (s : Site) (r : Requirement) : Site :=
  match s.children[r.child]? with
  | none => s
  | some child =>
    (s.setArgument r .failed).report
      [.of s.id (.incomplete s.id child.accessor.injector r.key) [r.key] child.accessor.location]

/-- Offers a value of its own bindings to the descendants. A failed attempt is rolled back and not
reported. -/
def exportKey (s : Site) (k : Key) : Option Nat × Site :=
  let (outcome, after) := s.walk k
  match outcome with
  | .node i => (some i, { after with exports := after.exports.insert k i })
  | .failed _ => (none, { after with store := after.store.rollback s.store })

def forward (s : Site) (k : Key) : Site :=
  let (i, s) := s.inherit k
  { s with exports := s.exports.insert k i }

def draft (s : Site) : Draft where
  nodes := s.store.nodes
  keys := s.store.nodeKeys
  providers := s.providers
  builders := s.builders
  children := s.children.filterMap ChildSite.draft?
  exports := s.exports

/-- The graph, or everything that went wrong; neither if the draft is not in order. -/
def finish (s : Site) : Option (Except (List Diagnostic) Graph) :=
  if s.diagnostics = [] then (s.draft.freeze s.id).map .ok else some (.error s.diagnostics)

end Site

end Wiring
