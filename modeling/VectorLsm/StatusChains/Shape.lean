import VectorLsm.StatusChains.Machine

/-! # The lists of pages

The array, the free pages and the chain of every memtable are lists that end and share no page.
What the calls do to the pages is stated by what it does to these lists.
-/

namespace VectorLsm.StatusChains

open Linked

/-- The lists the block numbers form. -/
structure Layout where
  array : List BlockNumber
  free : List BlockNumber
  chain : SegmentId → List BlockNumber

inductive Owner where
  | array
  | free
  | memtable (sid : SegmentId)
  deriving DecidableEq

def Layout.pages (v : Layout) : Owner → List BlockNumber
  | .array => v.array
  | .free => v.free
  | .memtable sid => v.chain sid

@[simps] def Layout.setChain (v : Layout) (sid : SegmentId) (l : List BlockNumber) : Layout :=
  { v with chain := Function.update v.chain sid l }

/-- The layout with a page more behind one of the lists. -/
def Layout.push (v : Layout) (new : BlockNumber) : Owner → Layout
  | .array => { v with array := v.array ++ [new] }
  | .free => { v with free := v.free ++ [new] }
  | .memtable sid => v.setChain sid (v.chain sid ++ [new])

/-- The layout when the chain of a memtable is given back. -/
def Layout.release (v : Layout) (sid : SegmentId) : Layout :=
  { v.setChain sid [] with free := v.free ++ v.chain sid }

/-- No page is on two lists. -/
def Layout.Disjoint (v : Layout) : Prop :=
  ∀ o o' b, b ∈ v.pages o → b ∈ v.pages o' → o = o'

/-- The page is on no list. -/
def Layout.Unowned (v : Layout) (b : BlockNumber) : Prop := ∀ o, b ∉ v.pages o

/-- The memtables that are registered. -/
def Store.entries (st : Store) (array : List BlockNumber) : List StatusMemtable :=
  array.flatMap st.memtables

def Store.Listed (st : Store) (array : List BlockNumber) (sid : SegmentId) : Prop :=
  ∃ mt ∈ st.entries array, mt.sid = sid

/-- The pages form the lists of the layout. A list that ends meets no page twice. -/
structure Shape (st : Store) (v : Layout) : Prop where
  array : Path st.next (some statusMemtableArrayBlkno) v.array none
  free : Path st.next st.freePageHead v.free none
  chain : ∀ mt ∈ st.entries v.array, Path st.next mt.memtablePageHead (v.chain mt.sid) none
  insert : ∀ mt ∈ st.entries v.array, ∃ b ∈ v.chain mt.sid, mt.memtableInsertPage = some b
  tail : st.freePageTail = v.free.getLast?
  sids : ((st.entries v.array).map (·.sid)).Nodup
  disjoint : v.Disjoint
  bound : ∀ o, ∀ b ∈ v.pages o, b < st.nblocks

namespace Store

variable {st : Store} {b : BlockNumber}

@[simp] theorem next_setPage (p : Page) :
    (st.setPage b p).next = Function.update st.next b p.nextblkno := by
  funext c
  rcases eq_or_ne c b with rfl | hc
  · simp [next]
  · simp [next, hc]

@[simp] theorem memtables_setPage (p : Page) :
    (st.setPage b p).memtables = Function.update st.memtables b p.memtables := by
  funext c
  rcases eq_or_ne c b with rfl | hc
  · simp [memtables]
  · simp [memtables, hc]

@[simp] theorem tuples_setPage (p : Page) :
    (st.setPage b p).tuples = Function.update st.tuples b p.tuples := by
  funext c
  rcases eq_or_ne c b with rfl | hc
  · simp [tuples]
  · simp [tuples, hc]

@[simp] theorem next_setNext (new : BlockNumber) :
    (st.setNext b new).next = Function.update st.next b (some new) := next_setPage _

@[simp] theorem memtables_setNext (new : BlockNumber) :
    (st.setNext b new).memtables = st.memtables := by
  rw [setNext, memtables_setPage]
  exact Function.update_eq_self b st.memtables

@[simp] theorem tuples_setNext (new : BlockNumber) : (st.setNext b new).tuples = st.tuples := by
  rw [setNext, tuples_setPage]
  exact Function.update_eq_self b st.tuples

@[simp] theorem next_setMemtables (mts : List StatusMemtable) :
    (st.setMemtables b mts).next = st.next := by
  rw [setMemtables, next_setPage]
  exact Function.update_eq_self b st.next

@[simp] theorem memtables_setMemtables (mts : List StatusMemtable) :
    (st.setMemtables b mts).memtables = Function.update st.memtables b mts := memtables_setPage _

@[simp] theorem tuples_setMemtables (mts : List StatusMemtable) :
    (st.setMemtables b mts).tuples = st.tuples := by
  rw [setMemtables, tuples_setPage]
  exact Function.update_eq_self b st.tuples

@[simp] theorem next_setTuples (tids : List Tid) : (st.setTuples b tids).next = st.next := by
  rw [setTuples, next_setPage]
  exact Function.update_eq_self b st.next

@[simp] theorem memtables_setTuples (tids : List Tid) :
    (st.setTuples b tids).memtables = st.memtables := by
  rw [setTuples, memtables_setPage]
  exact Function.update_eq_self b st.memtables

@[simp] theorem tuples_setTuples (tids : List Tid) :
    (st.setTuples b tids).tuples = Function.update st.tuples b tids := tuples_setPage _

@[simp] theorem nblocks_setNext (new : BlockNumber) :
    (st.setNext b new).nblocks = st.nblocks := rfl

@[simp] theorem freePageHead_setNext (new : BlockNumber) :
    (st.setNext b new).freePageHead = st.freePageHead := rfl

@[simp] theorem freePageTail_setNext (new : BlockNumber) :
    (st.setNext b new).freePageTail = st.freePageTail := rfl

@[simp] theorem nblocks_setMemtables (mts : List StatusMemtable) :
    (st.setMemtables b mts).nblocks = st.nblocks := rfl

@[simp] theorem freePageHead_setMemtables (mts : List StatusMemtable) :
    (st.setMemtables b mts).freePageHead = st.freePageHead := rfl

@[simp] theorem freePageTail_setMemtables (mts : List StatusMemtable) :
    (st.setMemtables b mts).freePageTail = st.freePageTail := rfl

/-- The memtable that is found. -/
theorem find_eq_some {sid : SegmentId} {off : ℕ} {mt : StatusMemtable}
    (h : st.find sid b = some (off, mt)) : (st.memtables b)[off]? = some mt ∧ mt.sid = sid := by
  obtain ⟨mt', hmt, heq⟩ := Option.map_eq_some_iff.mp h
  obtain ⟨rfl, rfl⟩ := Prod.mk.inj heq
  refine ⟨hmt, ?_⟩
  obtain ⟨hlt, hget⟩ := List.getElem?_eq_some_iff.mp hmt
  have hsid := List.findIdx_getElem (w := hlt)
  rw [hget] at hsid
  simpa using hsid

section Entries

variable {array : List BlockNumber} {mts : List StatusMemtable} {mt : StatusMemtable}

theorem mem_entries : mt ∈ st.entries array ↔ ∃ b ∈ array, mt ∈ st.memtables b :=
  List.mem_flatMap

theorem entries_congr {st' : Store} (h : ∀ b ∈ array, st'.memtables b = st.memtables b) :
    st'.entries array = st.entries array := List.flatMap_congr h

theorem entries_setMemtables (st : Store) (ha : array.Nodup) (hb : b ∈ array)
    (mts : List StatusMemtable) :
    ∃ rest, (st.entries array).Perm (st.memtables b ++ rest) ∧
      ((st.setMemtables b mts).entries array).Perm (mts ++ rest) := by
  obtain ⟨rest, hold, hnew⟩ := flatMap_perm st.memtables
    (Function.update st.memtables b mts) ha hb (fun c hc => Function.update_of_ne hc _ _)
  refine ⟨rest, hold, ?_⟩
  rw [Function.update_self] at hnew
  rw [entries, memtables_setMemtables]
  exact hnew

/-- `PageAddItem` on a page of the array. -/
theorem entries_push (st : Store) (ha : array.Nodup) (hb : b ∈ array) (mt : StatusMemtable) :
    ((st.setMemtables b (st.memtables b ++ [mt])).entries array).Perm
      (mt :: st.entries array) := by
  obtain ⟨rest, hold, hnew⟩ := st.entries_setMemtables ha hb (st.memtables b ++ [mt])
  refine hnew.trans ?_
  rw [List.append_assoc]
  exact List.perm_middle.trans (hold.symm.cons mt)

/-- `PageIndexTupleDelete` on a page of the array. -/
theorem entries_eraseIdx (st : Store) {off : ℕ} (ha : array.Nodup) (hb : b ∈ array)
    (hmt : (st.memtables b)[off]? = some mt) :
    (st.entries array).Perm
      (mt :: (st.setMemtables b ((st.memtables b).eraseIdx off)).entries array) := by
  obtain ⟨rest, hold, hnew⟩ :=
    st.entries_setMemtables ha hb ((st.memtables b).eraseIdx off)
  obtain ⟨hlt, rfl⟩ := List.getElem?_eq_some_iff.mp hmt
  refine hold.trans ?_
  refine ((List.getElem_cons_eraseIdx_perm hlt).symm.append_right rest).trans ?_
  exact hnew.symm.cons _

/-- The memtable at an offset is written over. -/
theorem entries_set (st : Store) {off : ℕ} (ha : array.Nodup) (hb : b ∈ array)
    (hmt : (st.memtables b)[off]? = some mt) (mt' : StatusMemtable) :
    ∃ rest, (st.entries array).Perm (mt :: rest) ∧
      ((st.setMemtables b ((st.memtables b).set off mt')).entries array).Perm (mt' :: rest) := by
  obtain ⟨rest, hold, hnew⟩ := st.entries_setMemtables ha hb ((st.memtables b).set off mt')
  obtain ⟨hlt, rfl⟩ := List.getElem?_eq_some_iff.mp hmt
  refine ⟨(st.memtables b).eraseIdx off ++ rest, hold.trans ?_, hnew.trans ?_⟩
  · exact (List.getElem_cons_eraseIdx_perm hlt).symm.append_right rest
  · exact (List.set_perm_cons_eraseIdx hlt mt').append_right rest

end Entries

end Store

theorem Layout.pages_push (v : Layout) (new : BlockNumber) (o o' : Owner) :
    (v.push new o).pages o' = if o' = o then v.pages o ++ [new] else v.pages o' := by
  cases o with
  | array => cases o' <;> simp [push, pages]
  | free => cases o' <;> simp [push, pages]
  | memtable sid =>
      cases o' with
      | array => simp [push, pages]
      | free => simp [push, pages]
      | memtable sid' => simp [push, pages, Function.update_apply]

theorem Layout.mem_push {v : Layout} {b new : BlockNumber} {o o' : Owner} :
    b ∈ (v.push new o).pages o' ↔ b ∈ v.pages o' ∨ o' = o ∧ b = new := by
  rw [v.pages_push]
  split
  case isTrue heq => simp [heq]
  case isFalse hne => simp [hne]

/-- The pages of a chain that is given back are free pages. -/
theorem Layout.mem_release {v : Layout} {b : BlockNumber} {sid : SegmentId} {o : Owner}
    (hb : b ∈ (v.release sid).pages o) :
    ∃ o', b ∈ v.pages o' ∧ o = if o' = .memtable sid then .free else o' := by
  cases o with
  | array => exact ⟨.array, hb, by simp⟩
  | free =>
      rcases List.mem_append.mp hb with hb | hb
      · exact ⟨.free, hb, by simp⟩
      · exact ⟨.memtable sid, hb, by simp⟩
  | memtable sid' =>
      rcases eq_or_ne sid' sid with rfl | hne
      · simp [pages, Layout.release] at hb
      · refine ⟨.memtable sid', ?_, by simp [hne]⟩
        simpa [pages, Layout.release, hne] using hb

namespace Layout.Disjoint

variable {v v' : Layout} {new : BlockNumber}

/-- One list gets a page that was on none. -/
theorem grow (h : v.Disjoint) (o₀ : Owner) (hnew : v.Unowned new)
    (hp : ∀ o b, b ∈ v'.pages o → b ∈ v.pages o ∨ o = o₀ ∧ b = new) : v'.Disjoint := by
  intro o o' b hb hb'
  rcases hp o b hb with hb | ⟨rfl, rfl⟩
  · rcases hp o' b hb' with hb' | ⟨rfl, rfl⟩
    · exact h o o' b hb hb'
    · exact absurd hb (hnew o)
  · rcases hp o' b hb' with hb' | ⟨rfl, -⟩
    · exact absurd hb' (hnew o')
    · rfl

theorem release (h : v.Disjoint) (sid : SegmentId) : (v.release sid).Disjoint := by
  intro o o' b hb hb'
  obtain ⟨o₁, h₁, rfl⟩ := mem_release hb
  obtain ⟨o₂, h₂, rfl⟩ := mem_release hb'
  rw [h o₁ o₂ b h₁ h₂]

end Layout.Disjoint

/-! ## Taking a page -/

/-- A page is taken from the free list or from behind the last block. -/
structure Taken (st st' : Store) (v v' : Layout) (new : BlockNumber) : Prop where
  shape : Shape st' v'
  array : v'.array = v.array
  chain : v'.chain = v.chain
  unowned : v'.Unowned new
  page : st'.page new = statusInitPage
  lt : new < st'.nblocks
  other : ∀ b, b ≠ new → st'.page b = st.page b

section Shape

variable {st st' : Store} {v v' : Layout} {b new : BlockNumber} {sid : SegmentId}

theorem Shape.of_eq (h : Shape st v) (hn : st'.next = st.next) (hm : st'.memtables = st.memtables)
    (hb : st'.nblocks = st.nblocks) (hh : st'.freePageHead = st.freePageHead)
    (ht : st'.freePageTail = st.freePageTail) : Shape st' v := by
  have he : st'.entries v.array = st.entries v.array := by rw [Store.entries, hm]; rfl
  constructor
  · rw [hn]; exact h.array
  · rw [hn, hh]; exact h.free
  · rw [hn, he]; exact h.chain
  · rw [he]; exact h.insert
  · rw [ht]; exact h.tail
  · rw [he]; exact h.sids
  · exact h.disjoint
  · rw [hb]; exact h.bound

/-- A page on no list is written over. -/
theorem Shape.setPage (h : Shape st v) (hb : v.Unowned b) (p : Page) :
    Shape (st.setPage b p) v := by
  have hn : ∀ o, ∀ c ∈ v.pages o, (st.setPage b p).next c = st.next c := by
    intro o c hc
    rw [Store.next_setPage, Function.update_of_ne (ne_of_mem_of_not_mem hc (hb o))]
  have he : (st.setPage b p).entries v.array = st.entries v.array := by
    refine Store.entries_congr fun c hc => ?_
    rw [Store.memtables_setPage, Function.update_of_ne (ne_of_mem_of_not_mem hc (hb .array))]
  constructor
  · exact h.array.congr (hn .array)
  · exact h.free.congr (hn .free)
  · rw [he]
    exact fun mt hmt => (h.chain mt hmt).congr (hn (.memtable mt.sid))
  · rw [he]; exact h.insert
  · exact h.tail
  · rw [he]; exact h.sids
  · exact h.disjoint
  · exact h.bound

theorem Shape.statusNewBuffer (h : Shape st v) :
    Taken st st.statusNewBuffer.2 v v st.statusNewBuffer.1 := by
  have hnew : v.Unowned st.nblocks := fun o hb => absurd (h.bound o _ hb) (lt_irrefl _)
  have hshape : Shape (st.setPage st.nblocks statusInitPage) v := h.setPage hnew _
  constructor
  · exact { hshape with bound := fun o b hb => Nat.lt_succ_of_lt (h.bound o b hb) }
  · rfl
  · rfl
  · exact hnew
  · exact Function.update_self _ _ _
  · exact Nat.lt_succ_self _
  · exact fun b hb => Function.update_of_ne hb _ _

theorem Shape.getFreePage (h : Shape st v) (hs : st.getFreePage = some (new, st')) :
    ∃ v', Taken st st' v v' new := by
  obtain ⟨b, hhead, heq⟩ := Option.map_eq_some_iff.mp hs
  obtain ⟨rfl, rfl⟩ := Prod.mk.inj heq
  obtain ⟨rest, hfree⟩ : ∃ rest, v.free = b :: rest := by
    have hb : v.free.head? = some b := h.free.head ▸ hhead
    exact ⟨v.free.tail, (List.cons_head?_tail hb).symm⟩
  have hpath := h.free
  have hb : b ∈ v.pages .free := by simp [Layout.pages, hfree]
  have hnd : (b :: rest).Nodup := hfree ▸ hpath.nodup
  rw [hfree] at hpath
  have hrest : st.next b = rest.head? := hpath.2.head
  have hsub : ∀ o, ∀ c ∈ Layout.pages ⟨v.array, rest, v.chain⟩ o, c ∈ v.pages o ∧ c ≠ b := by
    intro o c hc
    have hmem : c ∈ v.pages o := by
      cases o with
      | array => exact hc
      | free =>
          rw [Layout.pages, hfree]
          exact List.mem_cons_of_mem b hc
      | memtable sid => exact hc
    refine ⟨hmem, ?_⟩
    rintro rfl
    obtain rfl := h.disjoint _ _ _ hmem hb
    exact (List.nodup_cons.mp hnd).1 hc
  have hunowned : Layout.Unowned ⟨v.array, rest, v.chain⟩ b := fun o hc => (hsub o b hc).2 rfl
  have hpop : Shape { st with
      freePageHead := st.next b
      freePageTail := if (st.next b).isSome then st.freePageTail else none }
      ⟨v.array, rest, v.chain⟩ := by
    refine ⟨h.array, hpath.2, h.chain, h.insert, ?_, h.sids, ?_, ?_⟩
    · cases rest with
      | nil => simp [hrest]
      | cons c rest => simp [hrest, h.tail, hfree]
    · exact fun o o' c hc hc' => h.disjoint o o' c (hsub o c hc).1 (hsub o' c hc').1
    · exact fun o c hc => h.bound o c (hsub o c hc).1
  refine ⟨⟨v.array, rest, v.chain⟩, hpop.setPage hunowned _, rfl, rfl, hunowned,
    Function.update_self _ _ _, ?_, ?_⟩
  · exact h.bound .free b hb
  · exact fun c hc => Function.update_of_ne hc _ _

/-- The page a call takes. -/
theorem Shape.takePage (h : Shape st v) : ∃ v', Taken st st.takePage.2 v v' st.takePage.1 := by
  rw [Store.takePage]
  cases hf : st.getFreePage with
  | none => exact ⟨v, h.statusNewBuffer⟩
  | some r => exact h.getFreePage hf

/-- The last page of a list is led to a page that was on none. -/
theorem Shape.push (h : Shape st v) {o : Owner} (ho : o ≠ .free) (hb : b ∈ v.pages o)
    (hlast : st.next b = none) (hnew : v.Unowned new) (hpage : st.page new = statusInitPage)
    (hlt : new < st.nblocks) : Shape (st.setNext b new) (v.push new o) := by
  have hne : new ≠ b := fun heq => hnew o (heq ▸ hb)
  have hnext : ∀ c, c ≠ b → (st.setNext b new).next c = st.next c := by
    intro c hc
    rw [Store.next_setNext, Function.update_of_ne hc]
  have hpath : ∀ o' p, Path st.next p (v.pages o') none →
      Path (st.setNext b new).next p ((v.push new o).pages o') none := by
    intro o' p hp
    rw [v.pages_push]
    split
    case isTrue heq =>
      subst heq
      obtain ⟨xs, hxs⟩ := hp.eq_concat hb hlast
      rw [hxs] at hp ⊢
      refine hp.append (q := some new) (path_singleton.mpr ?_) ?_ ?_ hnext
      · simp [Store.next, hpage, statusInitPage]
      · simpa using hne.symm
      · simp
    case isFalse hne' =>
      exact hp.congr fun c hc => hnext c fun heq => hne' (h.disjoint o' o b (heq ▸ hc) hb)
  have hentries : (st.setNext b new).entries (v.push new o).array = st.entries v.array := by
    have hmem : st.memtables new = [] := by simp [Store.memtables, hpage, statusInitPage]
    cases o with
    | array => simp [Store.entries, Layout.push, hmem]
    | free => exact absurd rfl ho
    | memtable sid => simp [Store.entries, Layout.push]
  have hfree : (v.push new o).free = v.free := by
    cases o with
    | array => rfl
    | free => exact absurd rfl ho
    | memtable sid => rfl
  constructor
  · exact hpath .array _ h.array
  · exact hpath .free _ h.free
  · rw [hentries]
    exact fun mt hmt => hpath (.memtable mt.sid) _ (h.chain mt hmt)
  · rw [hentries]
    intro mt hmt
    obtain ⟨c, hc, hi⟩ := h.insert mt hmt
    have hc' : c ∈ (v.push new o).pages (.memtable mt.sid) := Layout.mem_push.mpr (.inl hc)
    exact ⟨c, hc', hi⟩
  · rw [hfree]
    exact h.tail
  · rw [hentries]
    exact h.sids
  · exact h.disjoint.grow o hnew fun o' c hc => Layout.mem_push.mp hc
  · intro o' c hc
    rcases Layout.mem_push.mp hc with hc | ⟨-, rfl⟩
    · exact h.bound o' c hc
    · exact hlt

/-- A memtable with a chain of one page goes on a page of the array. -/
theorem Shape.register (h : Shape st v) (hb : b ∈ v.array) (hnew : v.Unowned new)
    (hpage : st.page new = statusInitPage) (hlt : new < st.nblocks)
    (hsid : ¬ st.Listed v.array sid) :
    Shape (st.setMemtables b (st.memtables b ++ [StatusMemtable.mk (some new) (some new) sid]))
      (v.setChain sid [new]) := by
  have hperm := st.entries_push h.array.nodup hb
    (StatusMemtable.mk (some new) (some new) sid)
  have hchain : ∀ mt ∈ st.entries v.array,
      (v.setChain sid [new]).chain mt.sid = v.chain mt.sid := by
    intro mt hmt
    exact Function.update_of_ne (fun heq => hsid ⟨mt, hmt, heq⟩) _ _
  have hnext : st.next new = none := by simp [Store.next, hpage, statusInitPage]
  constructor
  · rw [Store.next_setMemtables]
    exact h.array
  · rw [Store.next_setMemtables]
    exact h.free
  · intro mt hmt
    rw [Store.next_setMemtables]
    rcases List.mem_cons.mp (hperm.mem_iff.mp hmt) with rfl | hmt
    · rw [Layout.setChain_chain, Function.update_self]
      exact path_singleton.mpr hnext
    · rw [hchain mt hmt]
      exact h.chain mt hmt
  · intro mt hmt
    rcases List.mem_cons.mp (hperm.mem_iff.mp hmt) with rfl | hmt
    · exact ⟨new, by simp, rfl⟩
    · rw [hchain mt hmt]
      exact h.insert mt hmt
  · exact h.tail
  · refine (hperm.map _).nodup_iff.mpr (List.nodup_cons.mpr ⟨fun hmem => ?_, h.sids⟩)
    obtain ⟨mt, hmt, heq⟩ := List.mem_map.mp hmem
    exact hsid ⟨mt, hmt, heq⟩
  · refine h.disjoint.grow (.memtable sid) hnew fun o c hc => ?_
    cases o with
    | array => exact .inl hc
    | free => exact .inl hc
    | memtable sid' =>
        rcases eq_or_ne sid' sid with rfl | hne
        · exact .inr ⟨rfl, by simpa [Layout.pages] using hc⟩
        · exact .inl (by simpa [Layout.pages, hne] using hc)
  · intro o c hc
    cases o with
    | array => exact h.bound .array c hc
    | free => exact h.bound .free c hc
    | memtable sid' =>
        rcases eq_or_ne sid' sid with rfl | hne
        · obtain rfl : c = new := by simpa [Layout.pages] using hc
          exact hlt
        · exact h.bound (.memtable sid') c (by simpa [Layout.pages, hne] using hc)

/-- A memtable gets an insert page of its own chain. -/
theorem Shape.setInsertPage (h : Shape st v) (hb : b ∈ v.array) {off : ℕ} {mt : StatusMemtable}
    (hmt : (st.memtables b)[off]? = some mt) {page : BlockNumber} (hp : page ∈ v.chain mt.sid) :
    Shape (st.setMemtables b ((st.memtables b).set off
      { mt with memtableInsertPage := some page })) v := by
  obtain ⟨rest, hold, hnew⟩ := st.entries_set h.array.nodup hb hmt
    { mt with memtableInsertPage := some page }
  constructor
  · rw [Store.next_setMemtables]
    exact h.array
  · rw [Store.next_setMemtables]
    exact h.free
  · intro mt' hmt'
    rw [Store.next_setMemtables]
    rcases List.mem_cons.mp (hnew.mem_iff.mp hmt') with rfl | hmem
    · exact h.chain mt (hold.mem_iff.mpr List.mem_cons_self)
    · exact h.chain mt' (hold.mem_iff.mpr (List.mem_cons_of_mem _ hmem))
  · intro mt' hmt'
    rcases List.mem_cons.mp (hnew.mem_iff.mp hmt') with rfl | hmem
    · exact ⟨page, hp, rfl⟩
    · exact h.insert mt' (hold.mem_iff.mpr (List.mem_cons_of_mem _ hmem))
  · exact h.tail
  · refine (hnew.map _).nodup_iff.mpr ?_
    exact (hold.map (·.sid)).nodup_iff.mp h.sids
  · exact h.disjoint
  · exact h.bound

/-- The loop over a chain ends at its last page. -/
theorem Shape.tailPage (h : Shape st v) {mt : StatusMemtable} (hmt : mt ∈ st.entries v.array) :
    st.tailPage mt = some (v.chain mt.sid).getLast? := by
  obtain ⟨b, hb, hi⟩ := h.insert mt hmt
  have hpath := h.chain mt hmt
  have hlen := length_le_of_lt hpath.nodup (h.bound (.memtable mt.sid))
  have hlast := hpath.last_eq hb hlen
  rw [Store.tailPage, hi]
  cases hl : (v.chain mt.sid).getLast? with
  | none => exact absurd hb (List.getLast?_eq_none_iff.mp hl ▸ List.not_mem_nil)
  | some t => simp [hlast, hl]

/-- The chain of a memtable comes behind the free pages. -/
theorem Shape.freePages (h : Shape st v) {mt : StatusMemtable} (hmt : mt ∈ st.entries v.array)
    (hs : st.freePages mt (v.chain mt.sid).getLast? = some st') :
    Path st'.next st'.freePageHead (v.free ++ v.chain mt.sid) none ∧
      st'.freePageTail = (v.free ++ v.chain mt.sid).getLast? ∧ st'.nblocks = st.nblocks ∧
      st'.memtables = st.memtables ∧ st'.tuples = st.tuples ∧
      ∀ b, b ∉ v.free → st'.next b = st.next b := by
  have hpath := h.chain mt hmt
  obtain ⟨c, hc, -⟩ := h.insert mt hmt
  have hne : v.chain mt.sid ≠ [] := List.ne_nil_of_mem hc
  rw [List.getLast?_append_of_ne_nil _ hne]
  rw [Store.freePages] at hs
  cases hhead : st.freePageHead with
  | none =>
      rw [hhead] at hs
      obtain rfl := Option.some.inj hs
      have hfree : v.free = [] := List.head?_eq_none_iff.mp (hhead ▸ h.free.head).symm
      rw [hfree]
      exact ⟨hpath, rfl, rfl, rfl, rfl, fun b _ => rfl⟩
  | some f =>
      rw [hhead] at hs
      obtain ⟨b, hb, rfl⟩ := Option.map_eq_some_iff.mp hs
      rw [h.tail] at hb
      have hmem : b ∈ v.free := List.mem_of_getLast? hb
      obtain ⟨xs, hxs⟩ := List.getLast?_eq_some_iff.mp hb
      have hnext : ∀ c, c ≠ b → Function.update st.next b mt.memtablePageHead c = st.next c :=
        fun c hc => Function.update_of_ne hc _ _
      have happ : Path (Function.update st.next b mt.memtablePageHead) st.freePageHead
          (v.free ++ v.chain mt.sid) none := by
        have hfree := h.free
        rw [hxs] at hfree ⊢
        refine hfree.append hpath (fun hbc => ?_) (Function.update_self _ _ _) hnext
        cases h.disjoint .free (.memtable mt.sid) b hmem hbc
      have hn : (st.setPage b { st.page b with nextblkno := mt.memtablePageHead }).next =
          Function.update st.next b mt.memtablePageHead := Store.next_setPage _
      refine ⟨?_, rfl, rfl, ?_, ?_, ?_⟩
      · rw [← hn] at happ
        exact happ
      · exact (Store.memtables_setPage _).trans (Function.update_eq_self b st.memtables)
      · exact (Store.tuples_setPage _).trans (Function.update_eq_self b st.tuples)
      · intro c hc
        have hcn := hnext c fun heq => hc (heq ▸ hmem)
        rw [← hn] at hcn
        exact hcn

/-- The memtable of `sid` leaves the array. -/
theorem Shape.release (h : Shape st v) (hb : b ∈ v.array) {off : ℕ} {mt : StatusMemtable}
    (hmt : (st.memtables b)[off]? = some mt)
    (hs : st.freePages mt (v.chain mt.sid).getLast? = some st') :
    Shape (st'.setMemtables b ((st'.memtables b).eraseIdx off)) (v.release mt.sid) := by
  have hmem : mt ∈ st.entries v.array := Store.mem_entries.mpr ⟨b, hb, List.mem_of_getElem? hmt⟩
  obtain ⟨hfree, htail, hnb, hmts, -, hnext⟩ := h.freePages hmem hs
  have hentries : st'.entries v.array = st.entries v.array :=
    Store.entries_congr fun c _ => by rw [hmts]
  have hperm := st'.entries_eraseIdx h.array.nodup hb (hmts ▸ hmt)
  rw [hentries] at hperm
  have hnd := (hperm.map (·.sid)).nodup_iff.mp h.sids
  rw [List.map_cons, List.nodup_cons] at hnd
  have hold : ∀ mt' ∈ (st'.setMemtables b ((st'.memtables b).eraseIdx off)).entries v.array,
      mt' ∈ st.entries v.array ∧ mt'.sid ≠ mt.sid := by
    intro mt' hmt'
    refine ⟨hperm.mem_iff.mpr (List.mem_cons_of_mem _ hmt'), fun heq => hnd.1 ?_⟩
    exact List.mem_map.mpr ⟨mt', hmt', heq⟩
  have hpath : ∀ o p, o ≠ .free → Path st.next p (v.pages o) none →
      Path st'.next p (v.pages o) none := by
    intro o p ho hp
    exact hp.congr fun c hc => hnext c fun hcf => ho (h.disjoint o .free c hc hcf)
  have hchain : ∀ mt' : StatusMemtable, mt'.sid ≠ mt.sid →
      (v.release mt.sid).chain mt'.sid = v.chain mt'.sid :=
    fun mt' hne => Function.update_of_ne hne _ _
  constructor
  · rw [Store.next_setMemtables]
    exact hpath .array _ (by simp) h.array
  · rw [Store.next_setMemtables]
    exact hfree
  · intro mt' hmt'
    obtain ⟨hmem', hne⟩ := hold mt' hmt'
    rw [Store.next_setMemtables, hchain mt' hne]
    exact hpath (.memtable mt'.sid) _ (by simp) (h.chain mt' hmem')
  · intro mt' hmt'
    obtain ⟨hmem', hne⟩ := hold mt' hmt'
    rw [hchain mt' hne]
    exact h.insert mt' hmem'
  · exact htail
  · exact hnd.2
  · exact h.disjoint.release mt.sid
  · intro o c hc
    obtain ⟨o', hc', -⟩ := Layout.mem_release hc
    exact hnb ▸ h.bound o' c hc'

end Shape

end VectorLsm.StatusChains
