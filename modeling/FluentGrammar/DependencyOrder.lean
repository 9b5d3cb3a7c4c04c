/-!
# Dependency order

A list of nodes is put into an order in which every node comes after the nodes it depends on.
Dependencies outside the list are ignored, and so is a node's dependency on itself. Nodes that
become ready together keep the order of the list, so the answer is determined by the input alone.

The nodes are handled by their positions. Each position that waits is kept with its *outstanding*
positions; the positions that wait for nothing stand in a queue. Handling a position takes it off
every outstanding list, and those that become empty join the queue.

* `DependencyOrder.sort`: the ordered nodes, or the nodes that can never be handled.
-/

namespace FluentGrammar.DependencyOrder

/-- A position with the positions that have to be handled before it, repetitions included. -/
structure Waiting where
  position : Nat
  outstanding : List Nat
deriving DecidableEq

/-- Nothing remains to be handled first. -/
def Waiting.isReady (w : Waiting) : Bool :=
  w.outstanding.isEmpty

/-- The same position once `done` has been handled. -/
def Waiting.resolve (done : Nat) (w : Waiting) : Waiting :=
  { w with outstanding := w.outstanding.filter (· ≠ done) }

/-- All of them once `done` has been handled. -/
def resolveAll (done : Nat) (waiting : List Waiting) : List Waiting :=
  waiting.map (Waiting.resolve done)

/-- The positions among `waiting` that wait for nothing, in their order. -/
def ready (waiting : List Waiting) : List Nat :=
  (waiting.filter Waiting.isReady).map Waiting.position

/-- Those among `waiting` that still wait for something. -/
def blocked (waiting : List Waiting) : List Waiting :=
  waiting.filter fun w => !w.isReady

theorem length_ready_add_blocked (waiting : List Waiting) :
    (ready waiting).length + (blocked waiting).length = waiting.length := by
  induction waiting with
  | nil => rfl
  | cons w ws ih =>
    simp only [ready, blocked, List.length_map, List.filter_cons] at ih ⊢
    cases w.isReady <;> simp <;> omega

/-- Handle the queue from its head, and the positions that this makes ready after it. The answer
is the order of handling and what stays blocked. -/
def drain (queue : List Nat) (waiting : List Waiting) : List Nat × List Waiting :=
  match queue with
  | [] => ([], waiting)
  | i :: queue =>
    let resolved := resolveAll i waiting
    let (order, rest) := drain (queue ++ ready resolved) (blocked resolved)
    (i :: order, rest)
termination_by queue.length + waiting.length
decreasing_by
  have h := length_ready_add_blocked (resolveAll i waiting)
  rw [show (resolveAll i waiting).length = waiting.length from List.length_map ..] at h
  simp only [List.length_append, List.length_cons]
  omega

variable {α : Type} [DecidableEq α]

/-- The last position of a node. -/
def lastPosition (nodes : List α) (a : α) : Option Nat :=
  (nodes.zipIdx.reverse.find? fun e => e.1 = a).map Prod.snd

/-- Every position of `nodes` with the positions of its listed dependencies other than itself. -/
def requirements (nodes : List α) (deps : α → List α) : List Waiting :=
  nodes.zipIdx.map fun (a, i) => ⟨i, ((deps a).filterMap (lastPosition nodes)).filter (· ≠ i)⟩

/-- The nodes in dependency order; when some cannot be ordered, those that depend on a cycle, in
the order of the list. -/
def sort (nodes : List α) (deps : α → List α) : Except (List α) (List α) :=
  let all := requirements nodes deps
  let (order, rest) := drain (ready all) (blocked all)
  if rest.isEmpty then .ok (order.filterMap (nodes[·]?))
  else .error (rest.filterMap (nodes[·.position]?))

end FluentGrammar.DependencyOrder
