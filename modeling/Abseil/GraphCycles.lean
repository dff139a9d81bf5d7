import Mathlib.Tactic

/-!
# The deadlock graph

`graphcycles.cc` of `absl/synchronization/internal` : nodes in numbered slots, each with a rank,
a version and its neighbours. A `GraphId` is a slot and the version the slot had; removing a node
bumps the version and puts the slot on a free list. Pointers are numbers, zero the null pointer;
a pointer is hidden by an invertible mask, which is left out. `PointerMap` is a map from pointers
to slots and a `NodeSet` a list without repetitions, whose order stands for the order in which the
hash set is walked.
-/

namespace Abseil.GraphCycles

open Function

/-- `Node`. -/
structure Node where
  rank : ℕ
  version : ℕ
  visited : Bool
  ptr : ℕ
  ins : List ℕ
  outs : List ℕ
deriving DecidableEq

/-- `GraphCycles::Rep`, without the temporary state of the searches. -/
structure Rep where
  nodes : List Node
  freeNodes : List ℕ
  ptrmap : ℕ → Option ℕ

/-- A graph without nodes. -/
def init : Rep := ⟨[], [], fun _ => none⟩

/-- `MakeId` : the version in the upper half of the handle. -/
def makeId (index version : ℕ) : ℕ := version * 2 ^ 32 + index % 2 ^ 32

/-- `NodeIndex`. -/
def nodeIndex (id : ℕ) : ℕ := id % 2 ^ 32

/-- `NodeVersion`. -/
def nodeVersion (id : ℕ) : ℕ := id / 2 ^ 32

/-- `FindNode`. -/
def findNode (r : Rep) (id : ℕ) : Option Node :=
  (r.nodes[nodeIndex id]?).bind fun n => if n.version = nodeVersion id then some n else none

/-- `Ptr`. -/
def ptr (r : Rep) (id : ℕ) : ℕ :=
  match findNode r id with
  | none => 0
  | some n => n.ptr

/-- `HasNode`. -/
def hasNode (r : Rep) (id : ℕ) : Bool := (findNode r id).isSome

/-- `GetId`. There is no result when `Vec::Grow` does not return : a capacity of `2 ^ 31`
doubles to zero. -/
def getId (r : Rep) (p : ℕ) : Option (ℕ × Rep) :=
  match r.ptrmap p with
  | some i => (r.nodes[i]?).map fun n => (makeId i n.version, r)
  | none =>
    match r.freeNodes.getLast? with
    | none =>
      if r.nodes.length = 2 ^ 31 then none
      else
        let i := r.nodes.length
        some (makeId i 1, { r with
          nodes := r.nodes ++ [⟨i, 1, false, p, [], []⟩]
          ptrmap := update r.ptrmap p (some i) })
    | some i =>
      (r.nodes[i]?).map fun n => (makeId i n.version, { r with
        nodes := r.nodes.modify i fun n => { n with ptr := p }
        freeNodes := r.freeNodes.dropLast
        ptrmap := update r.ptrmap p (some i) })

/-- `NodeSet::erase`. -/
def erase (s : List ℕ) (v : ℕ) : List ℕ := s.filter (· ≠ v)

/-- The edges of slot `i` are taken out of its neighbours, then out of `i`. -/
def removeEdges (nodes : List Node) (i : ℕ) (x : Node) : List Node :=
  let nodes := x.outs.foldl
    (fun ns y => ns.modify y fun n => { n with ins := erase n.ins i }) nodes
  let nodes := x.ins.foldl
    (fun ns y => ns.modify y fun n => { n with outs := erase n.outs i }) nodes
  nodes.modify i fun n => { n with ins := [], outs := [], ptr := 0 }

/-- `RemoveNode`. A slot whose version is the largest one is not used again. -/
def removeNode (r : Rep) (p : ℕ) : Rep :=
  match r.ptrmap p with
  | none => r
  | some i =>
    match r.nodes[i]? with
    | none => r
    | some x =>
      let nodes := removeEdges r.nodes i x
      let ptrmap := update r.ptrmap p none
      if x.version = 2 ^ 32 - 1 then { r with nodes := nodes, ptrmap := ptrmap }
      else
        ⟨nodes.modify i fun n => { n with version := n.version + 1 }, r.freeNodes ++ [i], ptrmap⟩

end Abseil.GraphCycles
