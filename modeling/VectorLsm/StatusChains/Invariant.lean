import VectorLsm.StatusChains.Carried

/-! # The sections of the calls

What a backend has read under one lock is still so under the next: blocks of the array stay in the
array, and the pages of a chain stay on it as long as its memtable is listed.
-/

namespace VectorLsm.StatusChains

section Invariant

variable {β : Type*}

/-- What a backend knows between two sections. -/
def Located (s : State β) (v : Layout) (i : β) : Pc → Prop
  | .idle => True
  | .registering _ blkno | .registeringAt _ blkno | .finding _ _ blkno | .seeking _ _ blkno
  | .releasing _ blkno => blkno ∈ v.array
  | .adding sid _ info page _ | .addingAt sid _ info page _ =>
      info.blkno ∈ v.array ∧ sid ∈ s.lists.sids ∧ page ∈ v.chain sid
  | .updating sid info page =>
      info.blkno ∈ v.array ∧ sid ∈ s.registered ∧ (sid ∈ s.lists.sids → page ∈ v.chain sid)
  | .removing sid _ array page =>
      array ∈ v.array ∧ i ∈ s.shared array ∧
        (∃ mt ∈ s.store.memtables array, mt.sid = sid) ∧ page ∈ v.chain sid

structure Inv (s : State β) (v : Layout) : Prop where
  shape : Shape s.store v
  carries : Carries s.store v s.lists
  registered : ∀ sid ∈ s.lists.sids, sid ∈ s.registered
  located : ∀ i, Located s v i (s.pc i)

/-- What a section of another backend leaves to backend `j`. -/
structure Frame (s s' : State β) (v v' : Layout) (j : β) : Prop where
  array : ∀ b ∈ v.array, b ∈ v'.array
  listed : ∀ sid, (s.pc j).addsTo sid → sid ∈ s.lists.sids → sid ∈ s'.lists.sids
  known : ∀ sid ∈ s.registered, sid ∈ s'.lists.sids → sid ∈ s.lists.sids
  chain : ∀ sid ∈ s.lists.sids, sid ∈ s'.lists.sids → ∀ b ∈ v.chain sid, b ∈ v'.chain sid
  registered : ∀ sid ∈ s.registered, sid ∈ s'.registered
  shared : ∀ b ∈ v.array, j ∈ s.shared b → j ∈ s'.shared b
  found : ∀ b ∈ v.array, j ∈ s.shared b → ∀ mt ∈ s.store.memtables b,
    ∃ mt' ∈ s'.store.memtables b, mt'.sid = mt.sid

variable {s s' : State β} {v v' : Layout} {i j : β} {sid : SegmentId} {b : BlockNumber}

theorem Carries.mem_sids {st : Store} {lists : StatusLists.StatusPages} (h : Carries st v lists)
    (hb : b ∈ v.array) (hmt : ∃ mt ∈ st.memtables b, mt.sid = sid) : sid ∈ lists.sids := by
  obtain ⟨mt, hmt, rfl⟩ := hmt
  exact h.listed_iff.mp ⟨mt, Store.mem_entries.mpr ⟨b, hb, hmt⟩, rfl⟩

theorem Located.frame (h : Inv s v) (hc : Carries s'.store v' s'.lists) (hf : Frame s s' v v' j) :
    Located s' v' j (s.pc j) := by
  have hj := h.located j
  have hlisted := hf.listed
  generalize s.pc j = pc at hj hlisted ⊢
  cases pc with
  | idle => trivial
  | registering sid blkno => exact hf.array blkno hj
  | registeringAt sid blkno => exact hf.array blkno hj
  | finding sid tid blkno => exact hf.array blkno hj
  | seeking sid tid blkno => exact hf.array blkno hj
  | releasing sid blkno => exact hf.array blkno hj
  | adding sid tid info page orig =>
      obtain ⟨hinfo, hsid, hpage⟩ := hj
      have hsid' := hlisted sid (by simp [Pc.addsTo]) hsid
      exact ⟨hf.array _ hinfo, hsid', hf.chain sid hsid hsid' page hpage⟩
  | addingAt sid tid info page orig =>
      obtain ⟨hinfo, hsid, hpage⟩ := hj
      have hsid' := hlisted sid (by simp [Pc.addsTo]) hsid
      exact ⟨hf.array _ hinfo, hsid', hf.chain sid hsid hsid' page hpage⟩
  | updating sid info page =>
      obtain ⟨hinfo, hsid, hpage⟩ := hj
      refine ⟨hf.array _ hinfo, hf.registered sid hsid, fun hsid' => ?_⟩
      have hold := hf.known sid hsid hsid'
      exact hf.chain sid hold hsid' page (hpage hold)
  | removing sid tid array page =>
      obtain ⟨harray, hshared, ⟨mt, hmt, rfl⟩, hpage⟩ := hj
      have hfound := hf.found array harray hshared mt hmt
      have hold := h.carries.mem_sids harray ⟨mt, hmt, rfl⟩
      have hnew := hc.mem_sids (hf.array array harray) hfound
      exact ⟨hf.array array harray, hf.shared array harray hshared, hfound,
        hf.chain mt.sid hold hnew page hpage⟩

theorem Taken.memtables {st st' : Store} {new : BlockNumber} (h : Taken st st' v v' new)
    (hb : b ∈ v.array) : st'.memtables b = st.memtables b := by
  rw [← h.array] at hb
  exact congrArg Page.memtables (h.other b (ne_of_mem_of_not_mem hb (h.unowned .array)))

/-- A section that adds pages, memtables or tuples and takes no memtable away. -/
theorem Frame.grow (harray : ∀ b ∈ v.array, b ∈ v'.array)
    (hlisted : ∀ sid ∈ s.lists.sids, sid ∈ s'.lists.sids)
    (hknown : ∀ sid ∈ s.registered, sid ∈ s'.lists.sids → sid ∈ s.lists.sids)
    (hchain : ∀ sid ∈ s.lists.sids, ∀ b ∈ v.chain sid, b ∈ v'.chain sid)
    (hreg : ∀ sid ∈ s.registered, sid ∈ s'.registered)
    (hshared : ∀ b, j ∈ s.shared b → j ∈ s'.shared b)
    (hfound : ∀ b ∈ v.array, ∀ mt ∈ s.store.memtables b,
      ∃ mt' ∈ s'.store.memtables b, mt'.sid = mt.sid) : Frame s s' v v' j where
  array := harray
  listed := fun sid _ hsid => hlisted sid hsid
  known := hknown
  chain := fun sid hsid _ => hchain sid hsid
  registered := hreg
  shared := fun b _ hb => hshared b hb
  found := fun b hb _ => hfound b hb

variable [DecidableEq β]

theorem Located.setPc {pc pc' : Pc} (h : Located s v j pc) : Located (s.setPc i pc') v j pc := by
  cases pc <;> exact h

/-- The invariant after a section of backend `i`. -/
theorem Inv.advance (h : Inv s v) {pc : Pc} (hpc : s'.pc = s.pc) (hshape : Shape s'.store v')
    (hcarries : Carries s'.store v' s'.lists)
    (hreg : ∀ sid ∈ s'.lists.sids, sid ∈ s'.registered)
    (hframe : ∀ j, j ≠ i → Frame s s' v v' j) (hi : Located s' v' i pc) :
    Inv (s'.setPc i pc) v' where
  shape := hshape
  carries := hcarries
  registered := hreg
  located := by
    intro j
    refine Located.setPc ?_
    rcases eq_or_ne j i with rfl | hj
    · rw [State.setPc_pc, Function.update_self]
      exact hi
    · rw [State.setPc_pc, Function.update_of_ne hj, hpc]
      exact Located.frame h hcarries (hframe j hj)

/-- A section that reads pages, and may give back buffers of its own. -/
theorem Inv.stay (h : Inv s v) {pc : Pc} (hpc : s'.pc = s.pc) (hstore : s'.store = s.store)
    (hlists : s'.lists = s.lists) (hreg : s'.registered = s.registered)
    (hshared : ∀ j, j ≠ i → ∀ b, j ∈ s.shared b → j ∈ s'.shared b) (hi : Located s' v i pc) :
    Inv (s'.setPc i pc) v := by
  refine h.advance hpc (hstore ▸ h.shape) (hstore ▸ hlists ▸ h.carries) ?_ ?_ hi
  · rw [hlists, hreg]
    exact h.registered
  · intro j hj
    constructor
    · exact fun b hb => hb
    · rw [hlists]
      exact fun sid _ hsid => hsid
    · rw [hlists]
      exact fun sid _ hsid => hsid
    · exact fun sid _ _ b hb => hb
    · rw [hreg]
      exact fun sid hsid => hsid
    · exact fun b _ => hshared j hj b
    · rw [hstore]
      exact fun b _ _ mt hmt => ⟨mt, hmt, rfl⟩

theorem Inv.setPc (h : Inv s v) {pc : Pc} (hi : Located s v i pc) : Inv (s.setPc i pc) v :=
  h.stay rfl rfl rfl rfl (fun _ _ _ hj => hj) hi

/-! ## Sections that change pages -/

/-- A page is taken and linked behind a list. -/
theorem Inv.extend (h : Inv s v) {o : Owner} (ho : o ≠ .free) {st : Store} {v₁ : Layout}
    {new : BlockNumber} (ht : Taken s.store st v v₁ new) (hb : b ∈ v₁.pages o)
    (hn : s.store.next b = none) {pc : Pc}
    (hi : Located ({ s with store := st.setNext b new }.lock i new) (v₁.push new o) i pc) :
    Inv (({ s with store := st.setNext b new }.lock i new).setPc i pc) (v₁.push new o) := by
  have hlast : st.next b = none := by
    rw [Store.next, ht.other b (ne_of_mem_of_not_mem hb (ht.unowned o))]
    exact hn
  refine h.advance rfl ?_ ((h.carries.taken ht).push ho ht.page) h.registered ?_ hi
  · exact ht.shape.push ho hb hlast ht.unowned ht.page ht.lt
  · intro j _
    refine .grow ?_ (fun _ hsid => hsid) (fun _ _ hsid => hsid) ?_ (fun _ hreg => hreg)
      (fun _ hj => hj) ?_
    · intro c hc
      rw [← ht.array] at hc
      have hc' : c ∈ (v₁.push new o).pages .array := Layout.mem_push.mpr (.inl hc)
      exact hc'
    · intro sid _ c hc
      rw [← ht.chain] at hc
      have hc' : c ∈ (v₁.push new o).pages (.memtable sid) := Layout.mem_push.mpr (.inl hc)
      exact hc'
    · intro c hc mt hmt
      refine ⟨mt, ?_, rfl⟩
      rw [← ht.memtables hc] at hmt
      simpa using hmt

theorem Inv.registerItem (h : Inv s v) (hb : b ∈ v.array) (hsid : sid ∉ s.registered)
    (hs : s.registerItem i sid b = some s') : ∃ v', Inv s' v' := by
  rw [State.registerItem] at hs
  split at hs
  case isFalse => cases hs
  case isTrue =>
    obtain ⟨v₁, ht⟩ := h.shape.takePage
    generalize s.store.takePage = r at hs ht
    obtain ⟨new, st⟩ := r
    obtain rfl := Option.some.inj hs
    have hc₁ := h.carries.taken ht
    have hnot : ¬ st.Listed v₁.array sid := fun hl =>
      hsid (h.registered sid (hc₁.listed_iff.mp hl))
    have hb₁ : b ∈ v₁.array := ht.array ▸ hb
    have hc' := hc₁.register ht.shape hb₁ ht.page hnot
    refine ⟨v₁.setChain sid [new], h.advance rfl ?_ hc' ?_ ?_ trivial⟩
    · exact ht.shape.register hb₁ ht.unowned ht.page ht.lt hnot
    · intro sid' hsid'
      rcases List.mem_append.mp (sids_registerMemtable ▸ hsid') with hsid' | hsid'
      · exact List.mem_cons_of_mem sid (h.registered sid' hsid')
      · exact List.mem_singleton.mp hsid' ▸ List.mem_cons_self
    · intro j _
      have hne : ∀ sid' ∈ s.registered, sid' ≠ sid := fun sid' h' => ne_of_mem_of_not_mem h' hsid
      refine .grow ?_ ?_ ?_ ?_ ?_ (fun _ hb => hb) ?_
      · exact fun c hc => ht.array ▸ hc
      · exact fun sid' hsid' => sids_registerMemtable ▸ List.mem_append_left [sid] hsid'
      · intro sid' hreg hsid'
        rcases List.mem_append.mp (sids_registerMemtable ▸ hsid') with hsid' | hsid'
        · exact hsid'
        · exact absurd (List.mem_singleton.mp hsid') (hne sid' hreg)
      · intro sid' hsid' c hc
        rw [Layout.setChain_chain, Function.update_of_ne (hne sid' (h.registered sid' hsid')),
          ht.chain]
        exact hc
      · exact fun sid' hreg => List.mem_cons_of_mem sid hreg
      · intro c hc mt hmt
        refine ⟨mt, ?_, rfl⟩
        rw [← ht.memtables hc] at hmt
        rcases eq_or_ne c b with rfl | hcb
        · simp [hmt]
        · simpa [hcb] using hmt

theorem Inv.register {cfg : Config} (h : Inv s v) (hb : b ∈ v.array) (hsid : sid ∉ s.registered)
    (hs : s.register cfg i sid b = some s') : ∃ v', Inv s' v' := by
  rw [State.register] at hs
  split at hs
  case isFalse => cases hs
  case isTrue =>
    split at hs
    case isTrue => exact h.registerItem hb hsid hs
    case isFalse =>
      cases hn : s.store.next b with
      | some next =>
          rw [hn] at hs
          obtain rfl := Option.some.inj hs
          exact ⟨v, h.setPc (h.shape.array.next_mem hb hn)⟩
      | none =>
          rw [hn] at hs
          obtain rfl := Option.some.inj hs
          have ht := h.shape.statusNewBuffer
          have hb₁ : b ∈ v.pages .array := hb
          exact ⟨_, h.extend (by simp) ht hb₁ hn
            (List.mem_append_right v.array (List.mem_singleton_self _))⟩

theorem Inv.findMemtableInsertPage {tid : Tid} (h : Inv s v) (hb : b ∈ v.array)
    (hs : s.findMemtableInsertPage i sid tid b = some s') : Inv s' v := by
  rw [State.findMemtableInsertPage] at hs
  split at hs
  case isFalse => cases hs
  case isTrue =>
    cases hf : s.store.find sid b with
    | some r =>
        obtain ⟨off, mt⟩ := r
        rw [hf] at hs
        obtain ⟨p, hp, rfl⟩ := Option.map_eq_some_iff.mp hs
        obtain ⟨hmt, rfl⟩ := Store.find_eq_some hf
        have hmem : mt ∈ s.store.memtables b := List.mem_of_getElem? hmt
        obtain ⟨c, hc, hi⟩ := h.shape.insert mt (Store.mem_entries.mpr ⟨b, hb, hmem⟩)
        obtain rfl : c = p := Option.some.inj (hi.symm.trans hp)
        exact h.setPc ⟨hb, h.carries.mem_sids hb ⟨mt, hmem, rfl⟩, hc⟩
    | none =>
        rw [hf] at hs
        cases hn : s.store.next b with
        | some next =>
            rw [hn] at hs
            obtain rfl := Option.some.inj hs
            exact h.setPc (h.shape.array.next_mem hb hn)
        | none =>
            rw [hn] at hs
            obtain rfl := Option.some.inj hs
            exact h.setPc trivial

theorem Inv.addItem {tid : Tid} {info : MemtableInfo} {page orig : BlockNumber} (h : Inv s v)
    (hinfo : info.blkno ∈ v.array) (hsid : sid ∈ s.lists.sids) (hp : page ∈ v.chain sid) :
    Inv (s.addItem i sid tid info page orig) v := by
  have hlisted := h.carries.listed_iff.mpr hsid
  refine h.advance rfl ?_ (h.carries.add h.shape hlisted hp) ?_ ?_ ?_
  · exact h.shape.of_eq (Store.next_setTuples _) (Store.memtables_setTuples _) rfl rfl rfl
  · intro sid' hsid'
    exact h.registered sid' (sids_add ▸ hsid')
  · intro j _
    refine .grow (fun _ hc => hc) ?_ ?_ (fun _ _ _ hc => hc) (fun _ hreg => hreg)
      (fun _ hj => hj) ?_
    · exact fun sid' hsid' => sids_add.symm ▸ hsid'
    · exact fun sid' _ hsid' => sids_add ▸ hsid'
    · intro c _ mt hmt
      exact ⟨mt, by simpa using hmt, rfl⟩
  · split
    case isTrue => exact ⟨hinfo, h.registered sid hsid, fun _ => hp⟩
    case isFalse => trivial

theorem Inv.add {cfg : Config} {tid : Tid} {info : MemtableInfo} {page orig : BlockNumber}
    (h : Inv s v) (hinfo : info.blkno ∈ v.array) (hsid : sid ∈ s.lists.sids)
    (hp : page ∈ v.chain sid) (hs : s.add cfg i sid tid info page orig = some s') :
    ∃ v', Inv s' v' := by
  rw [State.add] at hs
  split at hs
  case isFalse => cases hs
  case isTrue =>
    split at hs
    case isTrue =>
      obtain rfl := Option.some.inj hs
      exact ⟨v, h.addItem hinfo hsid hp⟩
    case isFalse =>
      obtain ⟨mt, hmt, rfl⟩ := h.carries.listed_iff.mpr hsid
      cases hn : s.store.next page with
      | some next =>
          rw [hn] at hs
          obtain rfl := Option.some.inj hs
          exact ⟨v, h.setPc ⟨hinfo, hsid, (h.shape.chain mt hmt).next_mem hp hn⟩⟩
      | none =>
          rw [hn] at hs
          dsimp only at hs
          split at hs
          case isFalse => cases hs
          case isTrue =>
            obtain rfl := Option.some.inj hs
            obtain ⟨v₁, ht⟩ := h.shape.takePage
            have hp₁ : page ∈ v₁.pages (.memtable mt.sid) := by
              rw [Layout.pages, ht.chain]
              exact hp
            refine ⟨_, h.extend (by simp) ht hp₁ hn ⟨?_, hsid, ?_⟩⟩
            · rw [← ht.array] at hinfo
              exact hinfo
            · simp [Layout.push]

theorem exists_mem_set {l : List StatusMemtable} {off : ℕ} {mt x : StatusMemtable}
    (hmt : l[off]? = some mt) (mt' : StatusMemtable) (hsid : mt'.sid = mt.sid) (hx : x ∈ l) :
    ∃ y ∈ l.set off mt', y.sid = x.sid := by
  obtain ⟨k, hk⟩ := List.mem_iff_getElem?.mp hx
  obtain ⟨hlt, -⟩ := List.getElem?_eq_some_iff.mp hmt
  rcases eq_or_ne off k with rfl | hne
  · refine ⟨mt', List.mem_set hlt mt', ?_⟩
    rw [hsid, Option.some.inj (hmt.symm.trans hk)]
  · exact ⟨x, List.mem_of_getElem? ((List.getElem?_set_ne hne).trans hk), rfl⟩

theorem Inv.statusUpdateInsertPage {info : MemtableInfo} {page : BlockNumber} (h : Inv s v)
    (hinfo : info.blkno ∈ v.array)
    (hp : sid ∈ s.lists.sids → page ∈ v.chain sid)
    (hok : ((s.store.memtables info.blkno)[info.offno]?).map (·.sid) = some sid)
    (hs : s.statusUpdateInsertPage i info page = some s') : Inv s' v := by
  rw [State.statusUpdateInsertPage] at hs
  split at hs
  case isFalse => cases hs
  case isTrue =>
    obtain ⟨mt, hmt, rfl⟩ := Option.map_eq_some_iff.mp hs
    obtain rfl : mt.sid = sid := by simpa [hmt] using hok
    have hsid := h.carries.mem_sids hinfo ⟨mt, List.mem_of_getElem? hmt, rfl⟩
    refine h.advance rfl ?_ ?_ h.registered ?_ trivial
    · exact h.shape.setInsertPage hinfo hmt (hp hsid)
    · exact h.carries.setInsertPage h.shape hinfo hmt (some page)
    · intro j _
      refine .grow (fun _ hc => hc) (fun _ hsid => hsid) (fun _ _ hsid => hsid)
        (fun _ _ _ hc => hc) (fun _ hreg => hreg) (fun _ hj => hj) ?_
      intro c _ x hx
      rcases eq_or_ne c info.blkno with rfl | hne
      · simpa using exists_mem_set hmt { mt with memtableInsertPage := some page } rfl hx
      · exact ⟨x, by simpa [hne] using hx, rfl⟩

theorem Inv.seek {tid : Tid} (h : Inv s v) (hb : b ∈ v.array)
    (hs : s.seek i sid tid b = some s') : Inv s' v := by
  rw [State.seek] at hs
  split at hs
  case isFalse => cases hs
  case isTrue =>
    cases hf : s.store.find sid b with
    | some r =>
        obtain ⟨off, mt⟩ := r
        obtain ⟨hmt, rfl⟩ := Store.find_eq_some hf
        have hmem : mt ∈ s.store.memtables b := List.mem_of_getElem? hmt
        have hpath := h.shape.chain mt (Store.mem_entries.mpr ⟨b, hb, hmem⟩)
        rw [hf] at hs
        cases hhead : mt.memtablePageHead with
        | some head =>
            simp only [hhead] at hs
            obtain rfl := Option.some.inj hs
            refine h.stay rfl rfl rfl rfl ?_ ?_
            · intro j _ c hj
              rcases eq_or_ne c b with rfl | hne
              · simp [hj]
              · simpa [hne] using hj
            · refine ⟨hb, by simp, ⟨mt, hmem, rfl⟩, ?_⟩
              exact List.mem_of_head? (hhead ▸ hpath.head).symm
        | none =>
            simp only [hhead] at hs
            obtain rfl := Option.some.inj hs
            exact h.setPc trivial
    | none =>
        rw [hf] at hs
        cases hn : s.store.next b with
        | some next =>
            rw [hn] at hs
            obtain rfl := Option.some.inj hs
            exact h.setPc (h.shape.array.next_mem hb hn)
        | none =>
            rw [hn] at hs
            obtain rfl := Option.some.inj hs
            exact h.setPc trivial

theorem mem_unlockShared (hj : j ≠ i) {c : BlockNumber} (h : j ∈ s.shared c) :
    j ∈ (s.unlockShared i b).shared c := by
  rcases eq_or_ne c b with rfl | hne
  · simpa using (List.mem_erase_of_ne hj).mpr h
  · simpa [hne] using h

theorem Inv.remove {tid : Tid} {array page : BlockNumber} (h : Inv s v)
    (hl : Located s v i (.removing sid tid array page))
    (hs : s.remove i sid tid array page = some s') : Inv s' v := by
  obtain ⟨harray, hshared, hfound, hp⟩ := hl
  have hsid := h.carries.mem_sids harray hfound
  have hlisted := h.carries.listed_iff.mpr hsid
  rw [State.remove] at hs
  split at hs
  case isFalse => cases hs
  case isTrue =>
    split at hs
    case isTrue ht =>
      obtain rfl := Option.some.inj hs
      refine h.advance rfl ?_ (h.carries.remove h.shape hlisted hp ht) ?_ ?_ trivial
      · exact h.shape.of_eq (Store.next_setTuples _) (Store.memtables_setTuples _) rfl rfl rfl
      · intro sid' hsid'
        exact h.registered sid' (sids_remove ▸ hsid')
      · intro j hj
        refine .grow (fun _ hc => hc) ?_ ?_ (fun _ _ _ hc => hc) (fun _ hreg => hreg) ?_ ?_
        · exact fun sid' hsid' => sids_remove.symm ▸ hsid'
        · exact fun sid' _ hsid' => sids_remove ▸ hsid'
        · exact fun c hc => mem_unlockShared hj hc
        · intro c _ mt hmt
          exact ⟨mt, by simpa using hmt, rfl⟩
    case isFalse =>
      cases hn : s.store.next page with
      | some next =>
          rw [hn] at hs
          obtain rfl := Option.some.inj hs
          obtain ⟨mt, hmt, rfl⟩ := hlisted
          exact h.setPc ⟨harray, hshared, hfound, (h.shape.chain mt hmt).next_mem hp hn⟩
      | none =>
          rw [hn] at hs
          obtain rfl := Option.some.inj hs
          exact h.stay rfl rfl rfl rfl (fun j hj c hc => mem_unlockShared hj hc) trivial

theorem Inv.release (h : Inv s v) (hb : b ∈ v.array)
    (hok : (s.store.find sid b).isSome → ∀ j, (s.pc j).addsTo sid = false)
    (hs : s.release i sid b = some s') : ∃ v', Inv s' v' := by
  rw [State.release] at hs
  split at hs
  case isFalse => cases hs
  case isTrue hfree =>
    cases hf : s.store.find sid b with
    | some r =>
        obtain ⟨off, mt⟩ := r
        have hidle := hok (by simp [hf])
        obtain ⟨hmt, rfl⟩ := Store.find_eq_some hf
        have hmem : mt ∈ s.store.memtables b := List.mem_of_getElem? hmt
        have hentry := Store.mem_entries.mpr ⟨b, hb, hmem⟩
        simp only [hf, h.shape.tailPage hentry] at hs
        split at hs
        case isFalse => cases hs
        case isTrue =>
          obtain ⟨st, hst, rfl⟩ := Option.map_eq_some_iff.mp hs
          obtain ⟨-, -, -, hmts, -, -⟩ := h.shape.freePages hentry hst
          have hnd := h.carries.nodup h.shape
          refine ⟨v.release mt.sid, h.advance rfl (h.shape.release hb hmt hst)
            (h.carries.release h.shape hb hmt hst) ?_ ?_ trivial⟩
          · intro sid' hsid'
            exact h.registered sid' (List.mem_of_mem_erase (sids_releaseMemtable ▸ hsid'))
          · intro j _
            refine ⟨fun _ hc => hc, ?_, ?_, ?_, fun _ hreg => hreg, fun _ _ hj => hj, ?_⟩
            · intro sid' hadds hsid'
              rw [sids_releaseMemtable, hnd.mem_erase_iff]
              refine ⟨?_, hsid'⟩
              rintro rfl
              simp [hidle j] at hadds
            · exact fun sid' _ hsid' => List.mem_of_mem_erase (sids_releaseMemtable ▸ hsid')
            · intro sid' _ hsid' c hc
              rw [sids_releaseMemtable, hnd.mem_erase_iff] at hsid'
              have hchain : (v.release mt.sid).chain sid' = v.chain sid' :=
                Function.update_of_ne hsid'.1 _ _
              exact hchain ▸ hc
            · intro c _ hj x hx
              -- The page is not the one a removal keeps locked.
              have hcb : c ≠ b := by
                rintro rfl
                have hempty : s.shared c = [] := by
                  simpa using (Bool.and_eq_true_iff.mp hfree).2
                simp [hempty] at hj
              exact ⟨x, by simpa [hcb, hmts] using hx, rfl⟩
    | none =>
        rw [hf] at hs
        cases hn : s.store.next b with
        | some next =>
            rw [hn] at hs
            obtain rfl := Option.some.inj hs
            exact ⟨v, h.setPc (h.shape.array.next_mem hb hn)⟩
        | none =>
            rw [hn] at hs
            obtain rfl := Option.some.inj hs
            exact ⟨v, h.setPc trivial⟩

theorem Inv.begin (h : Inv s v) (c : Call) : Inv (s.begin i c) v := by
  have hhead : statusMemtableArrayBlkno ∈ v.array := List.mem_of_head? h.shape.array.head.symm
  cases c with
  | registerStatusMemtable sid =>
      refine h.advance rfl ?_ ?_ h.registered ?_ hhead
      · exact h.shape.of_eq rfl rfl rfl rfl rfl
      · exact h.carries.congr rfl (List.Perm.refl _) fun _ _ => rfl
      · intro j _
        exact .grow (fun _ hc => hc) (fun _ hsid => hsid) (fun _ _ hsid => hsid)
          (fun _ _ _ hc => hc) (fun _ hreg => hreg) (fun _ hj => hj)
          (fun _ _ mt hmt => ⟨mt, hmt, rfl⟩)
  | addToStatusMemtable sid tid => exact h.setPc hhead
  | removeFromStatusMemtable sid tid => exact h.setPc hhead
  | releaseStatusMemtable sid => exact h.setPc hhead

end Invariant

end VectorLsm.StatusChains
