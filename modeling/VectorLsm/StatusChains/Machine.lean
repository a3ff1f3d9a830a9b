import VectorLsm.Lib.Linked
import VectorLsm.StatusLists.Machine

/-! # The pages under the status lists

The memtable array, the chains of tids and the free pages are lists of pages that name each other
by block number. The calls of `statuspage.c` run one section of locked buffers at a time, and keep
line-pointer offsets from one section to the next.
-/

namespace VectorLsm.StatusChains

open StatusLists (StatusPages)

/-- The absent one is `InvalidBlockNumber`. -/
abbrev BlockNumber := ℕ

def statusMemtableArrayBlkno : BlockNumber := 2

structure StatusMemtable where
  memtablePageHead : Option BlockNumber
  memtableInsertPage : Option BlockNumber
  sid : SegmentId
  deriving DecidableEq, Repr

/-- A page of the array holds memtables, a page of a chain tuples. -/
structure Page where
  nextblkno : Option BlockNumber
  memtables : List StatusMemtable
  tuples : List Tid
  deriving DecidableEq, Repr

def statusInitPage : Page := ⟨none, [], []⟩

/-- How many items a page takes before `PageGetFreeSpace` refuses one more. -/
structure Config where
  memtablesPerPage : ℕ
  tuplesPerPage : ℕ

/-- The place of a memtable, its offset counted from zero. -/
structure MemtableInfo where
  blkno : BlockNumber
  offno : ℕ
  deriving DecidableEq, Repr

/-! ## The relation -/

structure Store where
  page : BlockNumber → Page
  nblocks : ℕ
  freePageHead : Option BlockNumber
  freePageTail : Option BlockNumber
  maxMemtableSid : SegmentId

namespace Store

variable (st : Store)

def next (b : BlockNumber) : Option BlockNumber := (st.page b).nextblkno

def memtables (b : BlockNumber) : List StatusMemtable := (st.page b).memtables

def tuples (b : BlockNumber) : List Tid := (st.page b).tuples

@[simps] def setPage (b : BlockNumber) (p : Page) : Store :=
  { st with page := Function.update st.page b p }

def setNext (b new : BlockNumber) : Store :=
  st.setPage b { st.page b with nextblkno := some new }

def setMemtables (b : BlockNumber) (mts : List StatusMemtable) : Store :=
  st.setPage b { st.page b with memtables := mts }

def setTuples (b : BlockNumber) (tids : List Tid) : Store :=
  st.setPage b { st.page b with tuples := tids }

/-- The memtable of `sid` on a page, and its offset. -/
def find (sid : SegmentId) (b : BlockNumber) : Option (ℕ × StatusMemtable) :=
  let off := (st.memtables b).findIdx fun mt => mt.sid = sid
  ((st.memtables b)[off]?).map fun mt => (off, mt)

/-- `StatusNewBuffer` and `StatusInitPage`. -/
def statusNewBuffer : BlockNumber × Store :=
  (st.nblocks, { st.setPage st.nblocks statusInitPage with nblocks := st.nblocks + 1 })

/-- `GetFreePage`. -/
def getFreePage : Option (BlockNumber × Store) :=
  st.freePageHead.map fun b =>
    (b, { st.setPage b statusInitPage with
      freePageHead := st.next b
      freePageTail := if (st.next b).isSome then st.freePageTail else none })

/-- The page a chain gets: a free one, else a new one. -/
def takePage : BlockNumber × Store := st.getFreePage.getD st.statusNewBuffer

/-- The tail page of a memtable, if the loop to it ends. After `nblocks` turns it is in a cycle. -/
def tailPage (mt : StatusMemtable) : Option (Option BlockNumber) :=
  match mt.memtableInsertPage with
  | none => some none
  | some b => (Linked.last st.next st.nblocks b).map some

/-- The chain of a memtable goes behind the free pages. -/
def freePages (mt : StatusMemtable) (tail : Option BlockNumber) : Option Store :=
  match st.freePageHead with
  | none => some { st with freePageHead := mt.memtablePageHead, freePageTail := tail }
  | some _ =>
      st.freePageTail.map fun b =>
        { st.setPage b { st.page b with nextblkno := mt.memtablePageHead } with
          freePageTail := tail }

end Store

/-! ## The calls -/

inductive Call where
  | registerStatusMemtable (sid : SegmentId)
  | addToStatusMemtable (sid : SegmentId) (tid : Tid)
  | removeFromStatusMemtable (sid : SegmentId) (tid : Tid)
  | releaseStatusMemtable (sid : SegmentId)
  deriving DecidableEq, Repr

/-- Where a backend is, about to lock the page that is named. -/
inductive Pc where
  | idle
  | registering (sid : SegmentId) (blkno : BlockNumber)
  /-- The new page of the array is still locked. -/
  | registeringAt (sid : SegmentId) (blkno : BlockNumber)
  /-- In `FindMemtableInsertPage`. -/
  | finding (sid : SegmentId) (tid : Tid) (blkno : BlockNumber)
  | adding (sid : SegmentId) (tid : Tid) (info : MemtableInfo)
    (insertPage originalInsertPage : BlockNumber)
  /-- The new page of the chain is still locked. -/
  | addingAt (sid : SegmentId) (tid : Tid) (info : MemtableInfo)
    (insertPage originalInsertPage : BlockNumber)
  /-- In `StatusUpdateInsertPage`. -/
  | updating (sid : SegmentId) (info : MemtableInfo) (insertPage : BlockNumber)
  | seeking (sid : SegmentId) (tid : Tid) (blkno : BlockNumber)
  /-- The page of the array is kept locked. -/
  | removing (sid : SegmentId) (tid : Tid) (array currentPage : BlockNumber)
  | releasing (sid : SegmentId) (blkno : BlockNumber)
  deriving DecidableEq, Repr

/-- An insert that has found its memtable and has not put its tuple on a page. -/
def Pc.addsTo (sid : SegmentId) : Pc → Bool
  | .adding sid' _ _ _ _ | .addingAt sid' _ _ _ _ => sid' = sid
  | _ => false

inductive Act where
  | call (c : Call)
  /-- The next section of the call. -/
  | turn
  /-- The call is left by an error, its buffers unlocked. -/
  | error
  deriving DecidableEq, Repr

structure State (β : Type*) where
  store : Store
  /-- The buffers kept locked from one section to the next. -/
  exclusive : BlockNumber → Option β
  shared : BlockNumber → List β
  pc : β → Pc
  /-- Every sid that was registered. -/
  registered : List SegmentId
  /-- What the calls are for: the tids added and not removed, memtable by memtable. -/
  lists : StatusPages

section Steps

variable {β : Type*} [DecidableEq β] (cfg : Config) (s : State β) (i : β)

namespace State

/-- `BUFFER_LOCK_EXCLUSIVE` is granted. -/
def free (b : BlockNumber) : Bool := (s.exclusive b).isNone && (s.shared b).isEmpty

/-- `BUFFER_LOCK_SHARE` is granted. -/
def readable (b : BlockNumber) : Bool := (s.exclusive b).isNone

@[simps] def setPc (pc : Pc) : State β := { s with pc := Function.update s.pc i pc }

@[simps] def lock (b : BlockNumber) : State β :=
  { s with exclusive := Function.update s.exclusive b (some i) }

@[simps] def unlock (b : BlockNumber) : State β :=
  { s with exclusive := Function.update s.exclusive b none }

@[simps] def lockShared (b : BlockNumber) : State β :=
  { s with shared := Function.update s.shared b (i :: s.shared b) }

@[simps] def unlockShared (b : BlockNumber) : State β :=
  { s with shared := Function.update s.shared b ((s.shared b).erase i) }

/-- An error gives back every buffer. -/
@[simps] def unlockAll : State β :=
  { s with
    exclusive := fun b => if s.exclusive b = some i then none else s.exclusive b
    shared := fun b => (s.shared b).filter (· ≠ i) }

/-- The buffer `GetFreePage` locks. -/
def mayTake : Bool := s.store.freePageHead.all s.free

/-- The buffer `ReleaseStatusMemtable` locks next to the array. -/
def mayFree : Bool := s.store.freePageHead.isNone || s.store.freePageTail.all s.free

/-- The end of `RegisterStatusMemtable`, on an array page with room. -/
def registerItem (sid : SegmentId) (blkno : BlockNumber) : Option (State β) :=
  if s.mayTake then
    let (new, st) := s.store.takePage
    some (({ s with
      store := st.setMemtables blkno
        (st.memtables blkno ++ [StatusMemtable.mk (some new) (some new) sid])
      registered := sid :: s.registered
      lists := s.lists.redo (.registerMemtable sid) }.unlock blkno).setPc i .idle)
  else none

/-- One turn of the loop of `RegisterStatusMemtable`. -/
def register (sid : SegmentId) (blkno : BlockNumber) : Option (State β) :=
  if s.free blkno then
    if (s.store.memtables blkno).length < cfg.memtablesPerPage then s.registerItem i sid blkno
    else
      match s.store.next blkno with
      | some next => some (s.setPc i (.registering sid next))
      | none =>
          let (new, st) := s.store.statusNewBuffer
          some (({ s with store := st.setNext blkno new }.lock i new).setPc i
            (.registeringAt sid new))
  else none

/-- One page of `FindMemtableInsertPage`. Without a memtable `AddToStatusMemtable` raises an
error. -/
def findMemtableInsertPage (sid : SegmentId) (tid : Tid) (blkno : BlockNumber) :
    Option (State β) :=
  if s.readable blkno then
    match s.store.find sid blkno with
    | some (off, mt) =>
        mt.memtableInsertPage.map fun p => s.setPc i (.adding sid tid ⟨blkno, off⟩ p p)
    | none =>
        match s.store.next blkno with
        | some next => some (s.setPc i (.finding sid tid next))
        | none => some (s.setPc i .idle)
  else none

/-- The tuple goes on its page, whose buffer is given back. -/
def addItem (sid : SegmentId) (tid : Tid) (info : MemtableInfo)
    (insertPage originalInsertPage : BlockNumber) : State β :=
  ({ s with
    store := s.store.setTuples insertPage (s.store.tuples insertPage ++ [tid])
    lists := s.lists.redo (.add sid tid) }.unlock insertPage).setPc i
      (if insertPage ≠ originalInsertPage then .updating sid info insertPage else .idle)

/-- One turn of the loop of `AddToStatusMemtable`. -/
def add (sid : SegmentId) (tid : Tid) (info : MemtableInfo)
    (insertPage originalInsertPage : BlockNumber) : Option (State β) :=
  if s.free insertPage then
    if (s.store.tuples insertPage).length < cfg.tuplesPerPage then
      some (s.addItem i sid tid info insertPage originalInsertPage)
    else
      match s.store.next insertPage with
      | some next => some (s.setPc i (.adding sid tid info next originalInsertPage))
      | none =>
          if s.mayTake then
            let (new, st) := s.store.takePage
            some (({ s with store := st.setNext insertPage new }.lock i new).setPc i
              (.addingAt sid tid info new originalInsertPage))
          else none
  else none

/-- `StatusUpdateInsertPage`, at the offset that was read. Behind the last line pointer there is
no memtable to be read. -/
def statusUpdateInsertPage (info : MemtableInfo) (insertPage : BlockNumber) :
    Option (State β) :=
  if s.free info.blkno then
    ((s.store.memtables info.blkno)[info.offno]?).map fun mt =>
      { s with
        store := s.store.setMemtables info.blkno ((s.store.memtables info.blkno).set info.offno
          { mt with memtableInsertPage := some insertPage }) }.setPc i .idle
  else none

/-- One page of the array in `RemoveFromStatusMemtable`. -/
def seek (sid : SegmentId) (tid : Tid) (blkno : BlockNumber) : Option (State β) :=
  if s.readable blkno then
    match s.store.find sid blkno with
    | some (_, mt) =>
        match mt.memtablePageHead with
        | some head => some ((s.lockShared i blkno).setPc i (.removing sid tid blkno head))
        | none => some (s.setPc i .idle)
    | none =>
        match s.store.next blkno with
        | some next => some (s.setPc i (.seeking sid tid next))
        | none => some (s.setPc i .idle)
  else none

/-- One page of the chain in `RemoveFromStatusMemtable`. -/
def remove (sid : SegmentId) (tid : Tid) (array currentPage : BlockNumber) : Option (State β) :=
  if s.free currentPage then
    if tid ∈ s.store.tuples currentPage then
      some (({ s with
        store := s.store.setTuples currentPage ((s.store.tuples currentPage).erase tid)
        lists := s.lists.redo (.remove sid tid) }.unlockShared i array).setPc i .idle)
    else
      match s.store.next currentPage with
      | some next => some (s.setPc i (.removing sid tid array next))
      | none => some ((s.unlockShared i array).setPc i .idle)
  else none

/-- One page of the array in `ReleaseStatusMemtable`. The walk to the tail page is made for the
memtables before the one of `sid` too, and nothing comes of it. -/
def release (sid : SegmentId) (blkno : BlockNumber) : Option (State β) :=
  if s.free blkno then
    match s.store.find sid blkno with
    | some (off, mt) =>
        if s.mayFree then
          (s.store.tailPage mt).bind fun tail => (s.store.freePages mt tail).map fun st =>
            { s with
              store := st.setMemtables blkno ((st.memtables blkno).eraseIdx off)
              lists := s.lists.redo (.releaseMemtable sid) }.setPc i .idle
        else none
    | none =>
        match s.store.next blkno with
        | some next => some (s.setPc i (.releasing sid next))
        | none => some (s.setPc i .idle)
  else none

/-- The first section of `RegisterStatusMemtable` is `UpdateMaxMemtableSid`; the other calls begin
at the first page of the array. -/
def begin (c : Call) : State β :=
  match c with
  | .registerStatusMemtable sid =>
      { s with
        store := { s.store with maxMemtableSid := sid }
        lists := s.lists.redo (.updateMaxSid sid) }.setPc i
          (.registering sid statusMemtableArrayBlkno)
  | .addToStatusMemtable sid tid => s.setPc i (.finding sid tid statusMemtableArrayBlkno)
  | .removeFromStatusMemtable sid tid => s.setPc i (.seeking sid tid statusMemtableArrayBlkno)
  | .releaseStatusMemtable sid => s.setPc i (.releasing sid statusMemtableArrayBlkno)

def turn : Option (State β) :=
  match s.pc i with
  | .idle => none
  | .registering sid blkno => s.register cfg i sid blkno
  | .registeringAt sid blkno => s.registerItem i sid blkno
  | .finding sid tid blkno => s.findMemtableInsertPage i sid tid blkno
  | .adding sid tid info page orig => s.add cfg i sid tid info page orig
  | .addingAt sid tid info page orig => some (s.addItem i sid tid info page orig)
  | .updating _ info page => s.statusUpdateInsertPage i info page
  | .seeking sid tid blkno => s.seek i sid tid blkno
  | .removing sid tid array page => s.remove i sid tid array page
  | .releasing sid blkno => s.release i sid blkno

end State

def step (s : State β) (a : β × Act) : Option (State β) :=
  match a.2 with
  | .call c => if s.pc a.1 = .idle then some (s.begin a.1 c) else none
  | .turn => s.turn cfg a.1
  | .error => some ((s.unlockAll a.1).setPc a.1 .idle)

end Steps

/-- `CreateStatusMetaPage` and `InitializeStatusMemtableArray` have been run. -/
def Init {β : Type*} (s : State β) : Prop :=
  s.store.page statusMemtableArrayBlkno = statusInitPage ∧
    s.store.nblocks = 3 ∧ s.store.freePageHead = none ∧ s.store.freePageTail = none ∧
    s.store.maxMemtableSid = 0 ∧
    (∀ b, s.exclusive b = none ∧ s.shared b = []) ∧ (∀ i, s.pc i = .idle) ∧
    s.registered = [] ∧ s.lists = ⟨0, []⟩

end VectorLsm.StatusChains
