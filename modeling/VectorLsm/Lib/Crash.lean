import Mathlib.Data.List.AList

/-! # A directory that can crash

Files are inodes, a directory gives them names. A write is on disk once the file is synced, a
change of the directory once the directory is synced. A crash keeps of the rest what it likes:
every name has one of the meanings it had since the last sync of the directory, and a file that is
not synced has any content.
-/

namespace Crash

variable {N B S : Type*}

/-- The names of a directory and the inodes they stand for. -/
abbrev Entries (N : Type*) := AList fun _ : N => ℕ

structure Inode (B : Type*) where
  data : List B
  synced : Bool
  deriving DecidableEq

/-- A directory. `older` holds what it was since it was last synced. -/
structure Disk (N B : Type*) where
  inodes : List (Inode B)
  entries : Entries N
  older : List (Entries N)

/-- The system calls. `create` truncates a file that is already there. -/
inductive Op (N B : Type*)
  | create (n : N)
  | append (n : N) (bs : List B)
  | fsync (n : N)
  | rename (m n : N)
  | fsyncDir

/-- What is found after a crash. -/
structure Outcome (N B : Type*) where
  entries : Entries N
  data : List (List B)

namespace Disk

def views (d : Disk N B) : List (Entries N) := d.entries :: d.older

variable [DecidableEq N]

def modify (d : Disk N B) (n : N) (f : Inode B → Inode B) : Disk N B :=
  match d.entries.lookup n with
  | some i => { d with inodes := d.inodes.modify i f }
  | none => d

def apply (d : Disk N B) : Op N B → Disk N B
  | .create n =>
      match d.entries.lookup n with
      | some i => { d with inodes := d.inodes.modify i fun _ => ⟨[], false⟩ }
      | none => ⟨d.inodes ++ [⟨[], false⟩], d.entries.insert n d.inodes.length, d.views⟩
  | .append n bs => d.modify n fun x => ⟨x.data ++ bs, false⟩
  | .fsync n => d.modify n fun x => ⟨x.data, true⟩
  | .rename m n =>
      match d.entries.lookup m with
      | some i =>
          -- two names of one file stay as they are
          if d.entries.lookup n = some i then d
          else ⟨d.inodes, (d.entries.erase m).insert n i, d.views⟩
      | none => d
  | .fsyncDir => { d with older := [] }

def run (d : Disk N B) (ops : List (Op N B)) : Disk N B := ops.foldl apply d

/-- The content of a file, if there is one of this name. -/
def read (d : Disk N B) (n : N) : Option (List B) :=
  (d.entries.lookup n).bind fun i => d.inodes[i]?.map Inode.data

/-- The names a crash has to give a meaning to. -/
def names (d : Disk N B) (o : Outcome N B) : List N :=
  o.entries.keys ++ d.views.flatMap AList.keys

/-- A crash may leave `o`. -/
structure Leaves (d : Disk N B) (o : Outcome N B) : Prop where
  length : o.data.length = d.inodes.length
  data : ∀ p ∈ d.inodes.zip o.data, p.1.synced = true → p.2 = p.1.data
  entries : ∀ n ∈ d.names o, ∃ v ∈ d.views, o.entries.lookup n = v.lookup n

instance [DecidableEq B] (d : Disk N B) (o : Outcome N B) : Decidable (d.Leaves o) :=
  decidable_of_iff (_ ∧ _ ∧ _) ⟨fun h => ⟨h.1, h.2.1, h.2.2⟩, fun h => ⟨h.1, h.2, h.3⟩⟩

/-- The directory as it is found after the crash. What has been found is on disk. -/
def crash (o : Outcome N B) : Disk N B := ⟨o.data.map (⟨·, true⟩), o.entries, []⟩

end Disk

open Disk

variable {d d' : Disk N B} {o : Outcome N B} {op : Op N B} {ops : List (Op N B)} {n m : N}

@[simp] theorem crash_older : (Disk.crash o).older = [] := rfl
@[simp] theorem crash_entries : (Disk.crash o).entries = o.entries := rfl

theorem mem_views : d.entries ∈ d.views := List.mem_cons_self

variable [DecidableEq N]

@[simp] theorem run_nil : d.run [] = d := rfl

@[simp] theorem run_cons : d.run (op :: ops) = (d.apply op).run ops := rfl

theorem run_append (ops' : List (Op N B)) : d.run (ops ++ ops') = (d.run ops).run ops' :=
  List.foldl_append

theorem Disk.Leaves.lookup (h : d.Leaves o) (n : N) :
    ∃ v ∈ d.views, o.entries.lookup n = v.lookup n := by
  by_cases hn : n ∈ d.names o
  · exact h.entries n hn
  · simp only [names, List.mem_append, List.mem_flatMap, not_or, not_exists, not_and] at hn
    refine ⟨d.entries, mem_views, ?_⟩
    rw [AList.lookup_eq_none.mpr hn.1, AList.lookup_eq_none.mpr (hn.2 _ mem_views)]

theorem Disk.Leaves.inode (h : d.Leaves o) {i : ℕ} {bs : List B}
    (hi : d.inodes[i]? = some ⟨bs, true⟩) : (crash o).inodes[i]? = some ⟨bs, true⟩ := by
  obtain ⟨hlt, hi⟩ := List.getElem?_eq_some_iff.mp hi
  have hlt' : i < o.data.length := h.length ▸ hlt
  have hdata := h.data _ (List.getElem_mem (l := d.inodes.zip o.data) (n := i) (by simp; omega))
  rw [List.getElem_zip, hi] at hdata
  have hbs : o.data[i] = bs := hdata rfl
  simp [Disk.crash, hlt', hbs]

/-! ## Owners -/

/-- Every inode belongs to one slot, and all the names it has had are of that slot. -/
def Owned (slot : N → S) (d : Disk N B) : Prop :=
  ∃ owner : ℕ → S, ∀ v ∈ d.views, ∀ n i, v.lookup n = some i → i < d.inodes.length ∧
    slot n = owner i

/-- A system call about the files of one slot. -/
def Op.Within (slot : N → S) (s : S) : Op N B → Prop
  | .create n | .append n _ | .fsync n => slot n = s
  | .rename m n => slot m = s ∧ slot n = s
  | .fsyncDir => True

/-- What a step leaves of a name: its meaning, now and before, and the files it has stood for. -/
structure Kept (n : N) (d d' : Disk N B) : Prop where
  entries : d'.entries.lookup n = d.entries.lookup n
  views : ∀ v ∈ d'.views, ∃ w ∈ d.views, v.lookup n = w.lookup n
  inodes : ∀ v ∈ d.views, ∀ i, v.lookup n = some i → d'.inodes[i]? = d.inodes[i]?

variable {slot : N → S} {s : S}

theorem Kept.refl : Kept n d d := ⟨rfl, fun v hv => ⟨v, hv, rfl⟩, fun _ _ _ _ => rfl⟩

theorem modify_length (f : Inode B → Inode B) : (d.modify n f).inodes.length = d.inodes.length := by
  unfold Disk.modify
  split <;> simp

@[simp] theorem modify_views (f : Inode B → Inode B) : (d.modify n f).views = d.views := by
  unfold Disk.modify
  split <;> rfl

@[simp] theorem modify_entries (f : Inode B → Inode B) : (d.modify n f).entries = d.entries := by
  unfold Disk.modify
  split <;> rfl

theorem Owned.modify (h : Owned slot d) (f : Inode B → Inode B) : Owned slot (d.modify n f) := by
  obtain ⟨owner, h⟩ := h
  refine ⟨owner, ?_⟩
  rwa [modify_views, modify_length]

theorem Owned.distinct (h : Owned slot d) {v w : Entries N} {i : ℕ} (hv : v ∈ d.views)
    (hw : w ∈ d.views) (hn : v.lookup n = some i) (hm : w.lookup m = some i) :
    slot n = slot m := by
  obtain ⟨owner, h⟩ := h
  rw [(h v hv n i hn).2, (h w hw m i hm).2]

theorem Owned.kept_modify (h : Owned slot d) (hne : slot n ≠ slot m) (f : Inode B → Inode B) :
    Kept n d (d.modify m f) := by
  refine ⟨by rw [modify_entries], fun v hv => ⟨v, by rwa [modify_views] at hv, rfl⟩, ?_⟩
  intro v hv i hi
  unfold Disk.modify
  split
  case h_2 => rfl
  case h_1 j hj =>
    have hij : j ≠ i := by
      rintro rfl
      exact hne (h.distinct hv mem_views hi hj)
    simp [hij]

theorem create_eq_modify {i : ℕ} (hi : d.entries.lookup n = some i) :
    d.apply (.create n) = d.modify n fun _ => ⟨[], false⟩ := by
  simp [Disk.apply, Disk.modify, hi]

theorem create_of_none (hn : d.entries.lookup n = none) : d.apply (.create n) =
    ⟨d.inodes ++ [⟨[], false⟩], d.entries.insert n d.inodes.length, d.views⟩ := by
  simp [Disk.apply, hn]

theorem rename_of_ne {i : ℕ} (hm : d.entries.lookup m = some i)
    (hn : d.entries.lookup n ≠ some i) : d.apply (.rename m n) =
    ⟨d.inodes, (d.entries.erase m).insert n i, d.views⟩ := by
  simp [Disk.apply, hm, hn]

theorem rename_of_eq {i : ℕ} (hm : d.entries.lookup m = some i)
    (hn : d.entries.lookup n = some i) : d.apply (.rename m n) = d := by
  simp [Disk.apply, hm, hn]

theorem rename_of_none (hm : d.entries.lookup m = none) : d.apply (.rename m n) = d := by
  simp [Disk.apply, hm]

/-- Where a renamed name is found. -/
theorem lookup_rename {e : Entries N} {i : ℕ} {k : N} (hk : k ≠ m) (hkn : k ≠ n) :
    ((e.erase m).insert n i).lookup k = e.lookup k := by
  rw [AList.lookup_insert_ne hkn, AList.lookup_erase_ne hk]

theorem Owned.apply (h : Owned slot d) (hop : op.Within slot s) : Owned slot (d.apply op) := by
  cases op with
  | create k =>
      cases hk : d.entries.lookup k with
      | some j =>
          rw [create_eq_modify hk]
          exact h.modify _
      | none =>
          rw [create_of_none hk]
          obtain ⟨owner, h⟩ := h
          have hold : ∀ v ∈ d.views, ∀ n i, v.lookup n = some i →
              i < (d.inodes ++ [(⟨[], false⟩ : Inode B)]).length ∧
                slot n = Function.update owner d.inodes.length (slot k) i := by
            intro v hv n i hi
            obtain ⟨hlt, hs⟩ := h v hv n i hi
            refine ⟨by simp; omega, ?_⟩
            rw [Function.update_of_ne (Nat.ne_of_lt hlt), hs]
          refine ⟨Function.update owner d.inodes.length (slot k), ?_⟩
          intro v hv n i hi
          rcases List.mem_cons.mp hv with rfl | hv
          · by_cases hnk : n = k
            · subst hnk
              obtain rfl : d.inodes.length = i := by simpa using hi
              simp
            · simp only [AList.lookup_insert_ne hnk] at hi
              exact hold _ mem_views n i hi
          · exact hold v hv n i hi
  | append k bs => exact h.modify _
  | fsync k => exact h.modify _
  | rename k k' =>
      cases hk : d.entries.lookup k with
      | none =>
          rw [rename_of_none hk]
          exact h
      | some j =>
          by_cases hk' : d.entries.lookup k' = some j
          · rw [rename_of_eq hk hk']
            exact h
          rw [rename_of_ne hk hk']
          obtain ⟨owner, h⟩ := h
          refine ⟨owner, ?_⟩
          intro v hv n i hi
          rcases List.mem_cons.mp hv with rfl | hv
          · by_cases hnk : n = k'
            · subst hnk
              obtain rfl : j = i := by simpa using hi
              rw [hop.2, ← hop.1]
              exact h _ mem_views k j hk
            · by_cases hn : n = k
              · subst hn
                simp [AList.lookup_insert_ne hnk] at hi
              · rw [lookup_rename hn hnk] at hi
                exact h _ mem_views n i hi
          · exact h v hv n i hi
  | fsyncDir =>
      obtain ⟨owner, h⟩ := h
      refine ⟨owner, ?_⟩
      intro v hv n i hi
      obtain rfl : v = d.entries := by simpa [Disk.apply, Disk.views] using hv
      exact h _ mem_views n i hi

theorem Owned.kept (h : Owned slot d) (hop : op.Within slot s) (hn : slot n ≠ s) :
    Kept n d (d.apply op) := by
  cases op with
  | create k =>
      have hnk : n ≠ k := by
        rintro rfl
        exact hn hop
      cases hk : d.entries.lookup k with
      | some j =>
          rw [create_eq_modify hk]
          exact h.kept_modify (by rwa [show slot k = s from hop]) _
      | none =>
          rw [create_of_none hk]
          refine ⟨AList.lookup_insert_ne hnk, ?_, ?_⟩
          · intro v hv
            rcases List.mem_cons.mp hv with rfl | hv
            · exact ⟨_, mem_views, AList.lookup_insert_ne hnk⟩
            · exact ⟨v, hv, rfl⟩
          · intro v hv i hi
            obtain ⟨owner, h⟩ := h
            exact List.getElem?_append_left (h v hv n i hi).1
  | append k bs => exact h.kept_modify (by rwa [show slot k = s from hop]) _
  | fsync k => exact h.kept_modify (by rwa [show slot k = s from hop]) _
  | rename k k' =>
      have hnk : n ≠ k := by
        rintro rfl
        exact hn hop.1
      have hnk' : n ≠ k' := by
        rintro rfl
        exact hn hop.2
      cases hk : d.entries.lookup k with
      | none =>
          rw [rename_of_none hk]
          exact Kept.refl
      | some j =>
          by_cases hk' : d.entries.lookup k' = some j
          · rw [rename_of_eq hk hk']
            exact Kept.refl
          rw [rename_of_ne hk hk']
          refine ⟨lookup_rename hnk hnk', ?_, fun _ _ _ _ => rfl⟩
          intro v hv
          rcases List.mem_cons.mp hv with rfl | hv
          · exact ⟨_, mem_views, lookup_rename hnk hnk'⟩
          · exact ⟨v, hv, rfl⟩
  | fsyncDir =>
      refine ⟨rfl, ?_, fun _ _ _ _ => rfl⟩
      intro v hv
      obtain rfl : v = d.entries := by simpa [Disk.apply, Disk.views] using hv
      exact ⟨_, mem_views, rfl⟩

theorem Owned.crash (h : Owned slot d) (ho : d.Leaves o) : Owned slot (Disk.crash o) := by
  obtain ⟨owner, h⟩ := h
  refine ⟨owner, ?_⟩
  intro v hv n i hi
  obtain rfl : v = o.entries := by simpa [Disk.crash, Disk.views] using hv
  obtain ⟨w, hw, hvw⟩ := ho.lookup n
  have hold := h w hw n i (hvw ▸ hi)
  refine ⟨?_, hold.2⟩
  simpa [Disk.crash, ho.length] using hold.1

/-- Slots may be taken together. -/
theorem Owned.map {T : Type*} (g : S → T) (h : Owned slot d) : Owned (g ∘ slot) d := by
  obtain ⟨owner, h⟩ := h
  refine ⟨g ∘ owner, ?_⟩
  intro v hv n i hi
  obtain ⟨hlt, hs⟩ := h v hv n i hi
  exact ⟨hlt, congrArg g hs⟩

omit [DecidableEq N] in
theorem Op.Within.map {T : Type*} (g : S → T) (h : op.Within slot s) :
    op.Within (g ∘ slot) (g s) := by
  cases op with
  | rename m n => exact ⟨congrArg g h.1, congrArg g h.2⟩
  | fsyncDir => trivial
  | _ => exact congrArg g h

/-! ## What is known of a name -/

/-- The name has had one meaning since the directory was last synced. -/
def Fixed (n : N) (x : Option ℕ) (d : Disk N B) : Prop := ∀ v ∈ d.views, v.lookup n = x

/-- The file is there, with its name and its content on disk. -/
def Durable (n : N) (bs : List B) (d : Disk N B) : Prop :=
  ∃ i, Fixed n (some i) d ∧ d.inodes[i]? = some ⟨bs, true⟩

/-- What the name stands for now. -/
def Holds (n : N) (x : Inode B) (d : Disk N B) : Prop :=
  ∃ i, d.entries.lookup n = some i ∧ d.inodes[i]? = some x

variable {x : Option ℕ} {bs bs' : List B} {y : Inode B}

theorem Kept.fixed (h : Kept n d d') (hd : Fixed n x d) : Fixed n x d' := by
  intro v hv
  obtain ⟨w, hw, hvw⟩ := h.views v hv
  rw [hvw, hd w hw]

theorem Kept.durable (h : Kept n d d') (hd : Durable n bs d) : Durable n bs d' := by
  obtain ⟨i, hi, hbs⟩ := hd
  exact ⟨i, h.fixed hi, by rw [h.inodes _ mem_views i (hi _ mem_views), hbs]⟩

theorem Kept.holds (h : Kept n d d') (hd : Holds n y d) : Holds n y d' := by
  obtain ⟨i, hi, hy⟩ := hd
  exact ⟨i, by rw [h.entries, hi], by rw [h.inodes _ mem_views i hi, hy]⟩

theorem Kept.read (h : Kept n d d') : d'.read n = d.read n := by
  unfold Disk.read
  rw [h.entries]
  cases hn : d.entries.lookup n with
  | none => rfl
  | some i => simp only [Option.bind_some, h.inodes _ mem_views i hn]

theorem Fixed.crash (h : Fixed n x d) (ho : d.Leaves o) : Fixed n x (Disk.crash o) := by
  intro v hv
  obtain rfl : v = o.entries := by simpa [Disk.crash, Disk.views] using hv
  obtain ⟨w, hw, hvw⟩ := ho.lookup n
  rw [hvw, h w hw]

theorem Durable.crash (h : Durable n bs d) (ho : d.Leaves o) : Durable n bs (Disk.crash o) := by
  obtain ⟨i, hi, hbs⟩ := h
  exact ⟨i, hi.crash ho, ho.inode hbs⟩

theorem Durable.read (h : Durable n bs d) : d.read n = some bs := by
  obtain ⟨i, hi, hbs⟩ := h
  simp [Disk.read, hi _ mem_views, hbs]

theorem Durable.mem (h : Durable n bs d) : n ∈ d.entries := by
  obtain ⟨i, hi, -⟩ := h
  exact AList.lookup_isSome.mp (by rw [hi _ mem_views]; rfl)

theorem Holds.read (h : Holds n y d) : d.read n = some y.data := by
  obtain ⟨i, hi, hy⟩ := h
  simp [Disk.read, hi, hy]

theorem Fixed.read (h : Fixed n none d) : d.read n = none := by
  simp [Disk.read, h _ mem_views]

theorem fixed_iff (h : d.older = []) : Fixed n x d ↔ d.entries.lookup n = x := by
  simp [Fixed, Disk.views, h]

/-- The rule of frames: what is known of a name is known after any system calls about the files of
other slots. -/
theorem Owned.run {P : Disk N B → Prop} (h : Owned slot d)
    (hops : ∀ op ∈ ops, ∃ s, op.Within slot s ∧ slot n ≠ s)
    (hP : ∀ d d', Kept n d d' → P d → P d') (hd : P d) : P (d.run ops) := by
  induction ops generalizing d with
  | nil => exact hd
  | cons op ops ih =>
      obtain ⟨s, hs, hn⟩ := hops op List.mem_cons_self
      exact ih (h.apply hs) (fun op' hop' => hops op' (List.mem_cons_of_mem _ hop'))
        (hP _ _ (h.kept hs hn) hd)

theorem Owned.runs (h : Owned slot d) (hops : ∀ op ∈ ops, ∃ s, op.Within slot s) :
    Owned slot (d.run ops) := by
  induction ops generalizing d with
  | nil => exact h
  | cons op ops ih =>
      obtain ⟨s, hs⟩ := hops op List.mem_cons_self
      exact ih (h.apply hs) fun op' hop' => hops op' (List.mem_cons_of_mem _ hop')

/-! ## Writing a file -/

theorem Owned.holds_create (h : Owned slot d) : Holds n ⟨[], false⟩ (d.apply (.create n)) := by
  cases hn : d.entries.lookup n with
  | some i =>
      obtain ⟨owner, h⟩ := h
      have hlt := (h _ mem_views n i hn).1
      refine ⟨i, by rw [create_eq_modify hn, modify_entries, hn], ?_⟩
      simp [Disk.apply, hn, hlt]
  | none =>
      rw [create_of_none hn]
      exact ⟨d.inodes.length, AList.lookup_insert _, by simp⟩

theorem Holds.modify (h : Holds n y d) (f : Inode B → Inode B) : Holds n (f y) (d.modify n f) := by
  obtain ⟨i, hi, hy⟩ := h
  refine ⟨i, by rw [modify_entries, hi], ?_⟩
  simp [Disk.modify, hi, hy]

theorem Holds.append (h : Holds n y d) : Holds n ⟨y.data ++ bs, false⟩ (d.apply (.append n bs)) :=
  h.modify _

theorem Holds.fsync (h : Holds n y d) : Holds n ⟨y.data, true⟩ (d.apply (.fsync n)) :=
  h.modify _

theorem Holds.rename (h : Holds m y d) : Holds n y (d.apply (.rename m n)) := by
  obtain ⟨i, hi, hy⟩ := h
  by_cases hn : d.entries.lookup n = some i
  · rw [rename_of_eq hi hn]
    exact ⟨i, hn, hy⟩
  · rw [rename_of_ne hi hn]
    exact ⟨i, AList.lookup_insert _, hy⟩

theorem Holds.durable (h : Holds n ⟨bs, true⟩ d) (ho : d.older = []) : Durable n bs d := by
  obtain ⟨i, hi, hy⟩ := h
  exact ⟨i, (fixed_iff ho).mpr hi, hy⟩

theorem Holds.fsyncDir (h : Holds n ⟨bs, true⟩ d) : Durable n bs (d.apply .fsyncDir) :=
  Holds.durable (d := d.apply .fsyncDir) h rfl

/-! ## Names that come to be -/

/-- A system call that may give the name a meaning. -/
def Op.Makes (n : N) : Op N B → Prop
  | .create m | .rename _ m => m = n
  | _ => False

omit [DecidableEq N] in
theorem Op.Makes.within (h : op.Makes n) (hop : op.Within slot s) : slot n = s := by
  cases op with
  | create m => exact h ▸ hop
  | rename m m' => exact h ▸ hop.2
  | _ => exact h.elim

theorem Fixed.apply_none (h : Fixed n none d) (hop : ¬ op.Makes n) :
    Fixed n none (d.apply op) := by
  cases op with
  | create m =>
      cases hm : d.entries.lookup m with
      | some i =>
          rw [create_eq_modify hm]
          rwa [Fixed, modify_views]
      | none =>
          rw [create_of_none hm]
          intro v hv
          rcases List.mem_cons.mp hv with rfl | hv
          · rw [AList.lookup_insert_ne (Ne.symm hop), h _ mem_views]
          · exact h v hv
  | append m bs => rwa [Disk.apply, Fixed, modify_views]
  | fsync m => rwa [Disk.apply, Fixed, modify_views]
  | rename m m' =>
      cases hm : d.entries.lookup m with
      | none => rwa [rename_of_none hm]
      | some i =>
          by_cases hm' : d.entries.lookup m' = some i
          · rwa [rename_of_eq hm hm']
          rw [rename_of_ne hm hm']
          intro v hv
          rcases List.mem_cons.mp hv with rfl | hv
          · have hn : n ∉ d.entries := AList.lookup_eq_none.mp (h _ mem_views)
            rw [AList.lookup_insert_ne (Ne.symm hop), AList.lookup_eq_none, AList.mem_erase]
            exact fun hmem => hn hmem.2
          · exact h v hv
  | fsyncDir =>
      intro v hv
      obtain rfl : v = d.entries := by simpa [Disk.apply, Disk.views] using hv
      exact h _ mem_views

theorem Fixed.run_none (h : Fixed n none d) (hops : ∀ op ∈ ops, ¬ op.Makes n) :
    Fixed n none (d.run ops) := by
  induction ops generalizing d with
  | nil => exact h
  | cons op ops ih =>
      exact ih (h.apply_none (hops op List.mem_cons_self))
        fun op' hop' => hops op' (List.mem_cons_of_mem _ hop')

/-- Wherever the name has had a meaning, it was this file, complete and synced. -/
def Whole (n : N) (bs : List B) (d : Disk N B) : Prop :=
  ∀ v ∈ d.views, ∀ i, v.lookup n = some i → d.inodes[i]? = some ⟨bs, true⟩

theorem Fixed.whole (h : Fixed n none d) : Whole n bs d := by
  intro v hv i hi
  rw [h v hv] at hi
  cases hi

theorem Whole.rename (h : Whole n bs d) (hm : Holds m ⟨bs, true⟩ d) :
    Whole n bs (d.apply (.rename m n)) := by
  obtain ⟨i, hi, hbs⟩ := hm
  by_cases hn : d.entries.lookup n = some i
  · rwa [rename_of_eq hi hn]
  rw [rename_of_ne hi hn]
  intro v hv j hj
  rcases List.mem_cons.mp hv with rfl | hv
  · obtain rfl : i = j := by simpa using hj
    exact hbs
  · exact h v hv j hj

theorem Whole.fsyncDir (h : Whole n bs d) : Whole n bs (d.apply .fsyncDir) := by
  intro v hv i hi
  obtain rfl : v = d.entries := by simpa [Disk.apply, Disk.views] using hv
  exact h _ mem_views i hi

/-- If the crash leaves the name, it leaves the file. -/
theorem Whole.crash (h : Whole n bs d) (ho : d.Leaves o) (hn : n ∈ o.entries) :
    Durable n bs (Disk.crash o) := by
  obtain ⟨i, hi⟩ := Option.isSome_iff_exists.mp (AList.lookup_isSome.mpr hn)
  obtain ⟨v, hv, hvw⟩ := ho.lookup n
  exact ⟨i, (fixed_iff crash_older).mpr hi, ho.inode (h v hv i (hvw ▸ hi))⟩

end Crash
