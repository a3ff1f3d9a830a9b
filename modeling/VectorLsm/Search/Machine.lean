import Mathlib.Logic.Function.Basic
import VectorLsm.Lib.Transition
import VectorLsm.IndexBuffer.Machine

/-! # Vector searches and their result slots

Backends put search tasks into the ring buffer and wait on their result slot; the worker takes
the tasks out and hands each to search threads, the last of which writes the slot. A slot belongs
to a process, not to a search, and its `status` does not say which search is done.
-/

namespace VectorLsm.Search

variable {D V I : Type}

structure DistancePair (D : Type) where
  distance : D
  id : ℤ
  deriving DecidableEq, Repr

/-- What a search is about: the fields of `VectorSearchTaskData` but for the process. -/
structure Query (V : Type) where
  indexRelid : Oid
  vector : V
  topk : ℕ
  efsNprobe : ℕ
  /-- The memtables of the snapshot, which the backend searches itself. -/
  snapshot : List SegmentId
  deriving DecidableEq, Repr

/-- `SegmentSearchInfo` of a linked segment. -/
structure Segment (I : Type) where
  segmentIdStart : SegmentId
  segmentIdEnd : SegmentId
  index : I
  deriving DecidableEq, Repr

/-- The settings: the size of the ring, the order of distances, and the index library. -/
structure Config (D V I : Type) where
  ringSize : ℕ
  le : D → D → Bool
  vectorIndexSearch : I → V → ℕ → ℕ → List (DistancePair D)

inductive TaskSlot (V : Type) where
  /-- A search: its number, which the source does not have, and the process it is for. -/
  | search (req procno : ℕ) (query : Query V)
  | maintenance
  deriving DecidableEq, Repr

/-- A segment of a `ConcurrentSearchContext` with its `SegmentResult`. -/
structure Cell (D I : Type) where
  segment : Segment I
  pairs : Option (List (DistancePair D))
  deriving DecidableEq, Repr

/-- Where the last finisher of a context stands. -/
inductive Phase where
  | searching
  | merged
  | counted
  | written
  deriving DecidableEq, Repr

/-- `ConcurrentSearchContext`. -/
structure Context (D V I : Type) where
  procno : ℕ
  query : Query V
  cells : List (Cell D I)
  remainingCount : ℕ
  phase : Phase
  deriving DecidableEq, Repr

/-- A field of a result slot, with the number of the search that wrote it. -/
structure Written (α : Type) where
  value : α
  req : Option ℕ
  deriving DecidableEq, Repr

/-- `VectorSearchResultData`, the fields of searches, and the payload behind it. -/
structure ResultSlot (D : Type) where
  status : ℕ
  resultCount : Written ℕ
  pairs : Written (List (DistancePair D))
  deriving DecidableEq, Repr

/-- A backend inside `search_lsm_index`. -/
inductive Backend (V : Type) where
  | idle
  /-- Behind `vector_search_send`, up to the loop of `vector_search_get_result`. -/
  | waiting (req : ℕ) (query : Query V)
  /-- The loop has seen `status` 1. -/
  | reading (req : ℕ) (query : Query V)
  deriving DecidableEq, Repr

/-- A result a backend has used. -/
structure Consumed (D V : Type) where
  req : ℕ
  query : Query V
  resultCount : Written ℕ
  pairs : Written (List (DistancePair D))
  deriving DecidableEq, Repr

structure State (D V I : Type) where
  ring : List (TaskSlot V)
  /-- The contexts that are not freed, by the number of their search. -/
  contexts : ℕ → Option (Context D V I)
  results : ℕ → ResultSlot D
  backends : ℕ → Backend V
  /-- The linked segments of each index. -/
  pools : Oid → List (Segment I)
  /-- The number of the next search. -/
  next : ℕ
  /-- History: the results that were used. -/
  consumed : List (Consumed D V)

/-- `merge_top_k_cpp`. -/
def mergeTopK (le : D → D → Bool) : ℕ → List (DistancePair D) → List (DistancePair D) →
    List (DistancePair D)
  | 0, _, _ => []
  | _ + 1, [], [] => []
  | k + 1, p :: ps, [] => p :: mergeTopK le k ps []
  | k + 1, [], q :: qs => q :: mergeTopK le k [] qs
  | k + 1, p :: ps, q :: qs =>
      if le p.distance q.distance then p :: mergeTopK le k ps (q :: qs)
      else q :: mergeTopK le k (p :: ps) qs

/-- `merge_all_segment_results`. -/
def mergeAll (le : D → D → Bool) (topk : ℕ) (results : List (List (DistancePair D))) :
    List (DistancePair D) :=
  match results.filter fun r => !r.isEmpty with
  | [] => []
  | r :: rs => rs.foldl (fun merged r => mergeTopK le topk merged r) r

/-- What one thread computes for a segment. -/
def searchSegment (cfg : Config D V I) (query : Query V) (g : Segment I) :
    List (DistancePair D) :=
  cfg.vectorIndexSearch g.index query.vector query.topk query.efsNprobe

/-- Every segment id of the segment is one of the snapshot. -/
def fullyCovered (query : Query V) (g : Segment I) : Bool :=
  (List.range' g.segmentIdStart (g.segmentIdEnd + 1 - g.segmentIdStart)).all
    fun sid => decide (sid ∈ query.snapshot)

/-- The segments `vector_search` hands to the threads. -/
def segmentsToSearch (query : Query V) (gs : List (Segment I)) : List (Segment I) :=
  gs.filter fun g => !fullyCovered query g

/-- The context of a search; without a segment there is nothing to wait for. -/
def Context.start (procno : ℕ) (query : Query V) (gs : List (Segment I)) : Context D V I where
  procno := procno
  query := query
  cells := (segmentsToSearch query gs).map fun g => ⟨g, none⟩
  remainingCount := (segmentsToSearch query gs).length
  phase := if segmentsToSearch query gs = [] then .merged else .searching

/-- `final_pairs`. -/
def Context.finalPairs (cfg : Config D V I) (c : Context D V I) : List (DistancePair D) :=
  mergeAll cfg.le c.query.topk (c.cells.map fun cell => cell.pairs.getD [])

/-- Thread `i` ends its search and counts down. -/
def Context.finish (cfg : Config D V I) (c : Context D V I) (i : ℕ) (cell : Cell D I) :
    Context D V I :=
  { c with
    cells := c.cells.set i { cell with pairs := some (searchSegment cfg c.query cell.segment) }
    remainingCount := c.remainingCount - 1
    phase := if c.remainingCount - 1 = 0 then .merged else .searching }

inductive Action (V I : Type) where
  | send (p : ℕ) (query : Query V)
  /-- Another process submits a maintenance task. -/
  | submit
  /-- An error between the send and the end of the search, or the end of the process. -/
  | abort (p : ℕ)
  | check (p : ℕ)
  | consume (p : ℕ)
  /-- The worker handles the head of the ring. -/
  | dispatch
  | finish (req i : ℕ)
  | writeCount (req : ℕ)
  | writePairs (req : ℕ)
  | publish (req : ℕ)
  /-- A flush, a merge or an adoption changes the segments of an index. -/
  | setPool (relid : Oid) (gs : List (Segment I))

namespace State

variable (s : State D V I)

def setBackend (p : ℕ) (b : Backend V) : State D V I :=
  { s with backends := Function.update s.backends p b }

def setContext (req : ℕ) (c : Option (Context D V I)) : State D V I :=
  { s with contexts := Function.update s.contexts req c }

def setResult (p : ℕ) (r : ResultSlot D) : State D V I :=
  { s with results := Function.update s.results p r }

/-- `vector_search_send` with room in the ring. -/
def send (p : ℕ) (query : Query V) : State D V I :=
  { s with
    ring := s.ring ++ [.search s.next p query]
    results := Function.update s.results p { s.results p with status := 0 }
    backends := Function.update s.backends p (.waiting s.next query)
    next := s.next + 1 }

end State

def step (cfg : Config D V I) (s : State D V I) : Action V I → Option (State D V I)
  | .send p query =>
      match s.backends p with
      | .idle =>
          if s.ring.length = cfg.ringSize then some s else some (s.send p query)
      | _ => none
  | .submit =>
      if s.ring.length = cfg.ringSize then some s
      else some { s with ring := s.ring ++ [.maintenance] }
  | .abort p => some (s.setBackend p .idle)
  | .check p =>
      match s.backends p with
      | .waiting req query =>
          if (s.results p).status = 1 then some (s.setBackend p (.reading req query)) else some s
      | _ => none
  | .consume p =>
      match s.backends p with
      | .reading req query =>
          some { s.setBackend p .idle with
            consumed := ⟨req, query, (s.results p).resultCount, (s.results p).pairs⟩ :: s.consumed }
      | _ => none
  | .dispatch =>
      match s.ring with
      | [] => none
      | .search req p query :: ring =>
          some ({ s with ring := ring }.setContext req
            (some (.start p query (s.pools query.indexRelid))))
      | .maintenance :: ring => some { s with ring := ring }
  | .finish req i =>
      match s.contexts req with
      | none => none
      | some c =>
          match c.cells[i]? with
          | some cell =>
              if cell.pairs = none then some (s.setContext req (some (c.finish cfg i cell)))
              else none
          | none => none
  | .writeCount req =>
      match s.contexts req with
      | some c =>
          if c.phase = .merged then
            some ((s.setResult c.procno { s.results c.procno with
              resultCount := ⟨(c.finalPairs cfg).length, some req⟩ }).setContext req
                (some { c with phase := .counted }))
          else none
      | none => none
  | .writePairs req =>
      match s.contexts req with
      | some c =>
          if c.phase = .counted then
            some ((s.setResult c.procno { s.results c.procno with
              pairs := ⟨c.finalPairs cfg, some req⟩ }).setContext req
                (some { c with phase := .written }))
          else none
      | none => none
  | .publish req =>
      match s.contexts req with
      | some c =>
          if c.phase = .written then
            some ((s.setResult c.procno { s.results c.procno with status := 1 }).setContext req
              none)
          else none
      | none => none
  | .setPool relid gs => some { s with pools := Function.update s.pools relid gs }

/-- No search is under way; the slots are as `ring_buffer_init` leaves them. -/
def Init (s : State D V I) : Prop :=
  s.ring = [] ∧ (∀ n, s.contexts n = none) ∧
    (∀ p, s.results p = ⟨0, ⟨0, none⟩, ⟨[], none⟩⟩) ∧ (∀ p, s.backends p = .idle) ∧
    s.consumed = []

end VectorLsm.Search
