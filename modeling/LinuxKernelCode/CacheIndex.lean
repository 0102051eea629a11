import LinuxKernelCode.RedBlackDescent

/-!
# One tree of the scan cache with its slab

Each of the two trees of `cache.c` holds records of one slab.  An `Index` is a
tree together with the slab's live record ids.  The operations are the tree
macros of `cache.h` and the slab calls of `cache.c`; each notes a `Fault` when
the pointer it is given names a record that is not live, or not linked in the
tree, and otherwise only does what the C statement does.

The lemmas describe every operation by its effect on the sequence of records,
on the live ids and on the faults, so that later modules never unfold one.
-/

namespace LinuxKernelCode.ScanCache

open RedBlack

class SlabRecord (ρ : Type) where
  recordId : ρ → ℕ

export SlabRecord (recordId)

inductive Fault
  | readFreed (id : ℕ)
  | removeUnlinked (id : ℕ)
  | replaceUnlinked (id : ℕ)
  | freeNotLive (id : ℕ)
  deriving DecidableEq, Repr

structure Index (ρ : Type) where
  tree : RbTree ρ
  live : Finset ℕ
  next : ℕ
  faults : List Fault
  deriving DecidableEq

variable {ρ κ : Type}

def Index.empty : Index ρ := ⟨.nil, ∅, 0, []⟩

def Index.records (index : Index ρ) : List ρ := index.tree.inorder

/-! ## The slab -/

def Index.kmemCacheAlloc (succeeds : Bool) (index : Index ρ) :
    Option ℕ × Index ρ :=
  if succeeds then
    (some index.next,
      { index with
        live := insert index.next index.live
        next := index.next + 1 })
  else (none, index)

variable [SlabRecord ρ]

def Index.kmemCacheFree (record : ρ) (index : Index ρ) : Index ρ :=
  if recordId record ∈ index.live then
    { index with live := index.live.erase (recordId record) }
  else
    { index with faults := index.faults ++ [.freeNotLive (recordId record)] }

/-- A statement that reads fields through a record pointer. -/
def Index.read (record : ρ) (index : Index ρ) : Index ρ :=
  if recordId record ∈ index.live then index
  else
    { index with faults := index.faults ++ [.readFreed (recordId record)] }

/-! ## The tree macros -/

omit [SlabRecord ρ] in
/-- `RB_INSERT` returns `-1` at a duplicate and `0` after linking. -/
def Index.rbInsert (rb : Rbtree) (cmp : ρ → ρ → ℤ) (new : ρ) (index : Index ρ) :
    ℤ × Index ρ :=
  match descendSlot (cmp new) index.tree .root with
  | .error _ => (-1, index)
  | .ok slot => (0, { index with tree := rb.insertColor slot new })

omit [SlabRecord ρ] in
/-- `RB_SEARCH` leaves the result variable alone when nothing is found. -/
def Index.rbSearch (cmp : κ → ρ → ℤ) (searchingKey : κ) (searchRecord : Option ρ)
    (index : Index ρ) : Option ρ :=
  match descendFind (cmp searchingKey) index.tree with
  | some this => some this
  | none => searchRecord

def Index.position (record : ρ) (index : Index ρ) : Option (Position ρ) :=
  index.tree.locate (fun other => recordId other == recordId record) .root

def Index.rbRemove (rb : Rbtree) (record : ρ) (index : Index ρ) : Index ρ :=
  match index.position record with
  | some position => { index with tree := rb.erase position }
  | none =>
      { index with
        faults := index.faults ++ [.removeUnlinked (recordId record)] }

def Index.rbReplace (old new : ρ) (index : Index ρ) : Index ρ :=
  match index.position old with
  | some position => { index with tree := position.replace new }
  | none =>
      { index with
        faults := index.faults ++ [.replaceUnlinked (recordId old)] }

omit [SlabRecord ρ] in
def Index.rbFirst (index : Index ρ) : Option ρ :=
  (index.tree.first .root).map Position.value

omit [SlabRecord ρ] in
def Index.rbLast (index : Index ρ) : Option ρ :=
  (index.tree.last .root).map Position.value

/-! ## Well-formed indexes -/

/-- The linked records have distinct ids, all of them live, and no id has
been handed out beyond the counter. -/
structure Index.WellFormed (index : Index ρ) : Prop where
  idsNodup : (index.records.map recordId).Nodup
  recordsLive : ∀ record ∈ index.records, recordId record ∈ index.live
  liveLt : ∀ id ∈ index.live, id < index.next

theorem Index.empty_wellFormed : (Index.empty : Index ρ).WellFormed := by
  constructor <;> simp [Index.empty, Index.records]

theorem Index.WellFormed.eq_of_id_eq
    {index : Index ρ} (hwell : index.WellFormed) {first second : ρ}
    (hfirst : first ∈ index.records) (hsecond : second ∈ index.records)
    (heq : recordId first = recordId second) : first = second :=
  List.inj_on_of_nodup_map hwell.idsNodup hfirst hsecond heq

theorem Index.WellFormed.next_notMem_live
    {index : Index ρ} (hwell : index.WellFormed) :
    index.next ∉ index.live :=
  fun hmem => lt_irrefl _ (hwell.liveLt _ hmem)

theorem Index.WellFormed.id_ne_next
    {index : Index ρ} (hwell : index.WellFormed) {record : ρ}
    (hrecord : record ∈ index.records) : recordId record ≠ index.next :=
  (hwell.liveLt _ (hwell.recordsLive record hrecord)).ne

/-! ## Allocation, release and field reads -/

omit [SlabRecord ρ] in
@[simp] theorem Index.kmemCacheAlloc_false (index : Index ρ) :
    index.kmemCacheAlloc false = (none, index) := rfl

theorem Index.WellFormed.alloc
    {index : Index ρ} (hwell : index.WellFormed) :
    ({ index with
      live := insert index.next index.live
      next := index.next + 1 } : Index ρ).WellFormed := by
  constructor
  · exact hwell.idsNodup
  · intro record hrecord
    exact Finset.mem_insert_of_mem (hwell.recordsLive record hrecord)
  · intro id hid
    rcases Finset.mem_insert.mp hid with heq | hmem
    · exact heq ▸ Nat.lt_succ_self _
    · exact (hwell.liveLt id hmem).trans (Nat.lt_succ_self _)

@[simp] theorem Index.records_kmemCacheFree (record : ρ) (index : Index ρ) :
    (index.kmemCacheFree record).records = index.records := by
  unfold Index.kmemCacheFree
  split_ifs <;> rfl

@[simp] theorem Index.tree_kmemCacheFree (record : ρ) (index : Index ρ) :
    (index.kmemCacheFree record).tree = index.tree := by
  unfold Index.kmemCacheFree
  split_ifs <;> rfl

@[simp] theorem Index.next_kmemCacheFree (record : ρ) (index : Index ρ) :
    (index.kmemCacheFree record).next = index.next := by
  unfold Index.kmemCacheFree
  split_ifs <;> rfl

@[simp] theorem Index.live_kmemCacheFree (record : ρ) (index : Index ρ) :
    (index.kmemCacheFree record).live = index.live.erase (recordId record) := by
  unfold Index.kmemCacheFree
  split_ifs with hlive
  · rfl
  · exact (Finset.erase_eq_of_notMem hlive).symm

theorem Index.faults_kmemCacheFree
    {record : ρ} {index : Index ρ} (hlive : recordId record ∈ index.live) :
    (index.kmemCacheFree record).faults = index.faults := by
  simp [Index.kmemCacheFree, hlive]

theorem Index.read_eq_self
    {record : ρ} {index : Index ρ} (hlive : recordId record ∈ index.live) :
    index.read record = index := by
  simp [Index.read, hlive]

@[simp] theorem Index.tree_read (record : ρ) (index : Index ρ) :
    (index.read record).tree = index.tree := by
  unfold Index.read
  split_ifs <;> rfl

@[simp] theorem Index.live_read (record : ρ) (index : Index ρ) :
    (index.read record).live = index.live := by
  unfold Index.read
  split_ifs <;> rfl

@[simp] theorem Index.next_read (record : ρ) (index : Index ρ) :
    (index.read record).next = index.next := by
  unfold Index.read
  split_ifs <;> rfl

/-! ## Search and insertion -/

omit [SlabRecord ρ] in
theorem Index.rbSearch_none_eq
    (cmp : κ → ρ → ℤ) (searchingKey : κ) (index : Index ρ) :
    index.rbSearch cmp searchingKey none =
      descendFind (cmp searchingKey) index.tree := by
  unfold Index.rbSearch
  cases descendFind (cmp searchingKey) index.tree <;> rfl

omit [SlabRecord ρ] in
theorem Index.rbSearch_eq_some
    {cmp : κ → ρ → ℤ} {searchingKey : κ} {index : Index ρ} {record : ρ}
    (hsearch : index.rbSearch cmp searchingKey none = some record) :
    record ∈ index.records ∧ cmp searchingKey record = 0 := by
  rw [Index.rbSearch_none_eq] at hsearch
  exact descendFind_eq_some hsearch

omit [SlabRecord ρ] in
theorem Index.rbInsert_of_found
    (rb : Rbtree) {cmp : ρ → ρ → ℤ} {new old : ρ} {index : Index ρ}
    (hfound : index.rbSearch cmp new none = some old) :
    index.rbInsert rb cmp new = (-1, index) := by
  rw [Index.rbSearch_none_eq] at hfound
  unfold Index.rbInsert
  rw [descendSlot_of_find_some hfound]

omit [SlabRecord ρ] in
/-- Where nothing is found, `RB_INSERT` links the new record somewhere in the
sequence and touches nothing else. -/
theorem Index.rbInsert_of_notFound
    (rb : Rbtree) {cmp : ρ → ρ → ℤ} {new : ρ} {index : Index ρ}
    (hfound : index.rbSearch cmp new none = none) :
    ∃ slot, descendSlot (cmp new) index.tree .root = .ok slot ∧
      index.records = slot.before ++ slot.after ∧
      index.rbInsert rb cmp new =
        (0, { index with tree := rb.insertColor slot new }) ∧
      ({ index with tree := rb.insertColor slot new } : Index ρ).records =
        slot.before ++ new :: slot.after := by
  rw [Index.rbSearch_none_eq] at hfound
  obtain ⟨slot, hslot⟩ := descendSlot_of_find_none hfound .root
  refine ⟨slot, hslot, ?_, ?_, ?_⟩
  · simpa [Index.records] using (descendSlot_inorder hslot).symm
  · unfold Index.rbInsert
    rw [hslot]
  · exact rb.inorder_insertColor slot new

theorem Index.WellFormed.link
    {index : Index ρ} (hwell : index.WellFormed) {tree : RbTree ρ}
    {before after : List ρ} {new : ρ}
    (hrecords : index.records = before ++ after)
    (htree : tree.inorder = before ++ new :: after)
    (hlive : recordId new ∈ index.live)
    (hfresh : ∀ record ∈ index.records, recordId record ≠ recordId new) :
    ({ index with tree := tree } : Index ρ).WellFormed := by
  have hperm : tree.inorder.Perm (new :: index.records) := by
    rw [htree, hrecords]
    exact List.perm_middle
  constructor
  · change (tree.inorder.map recordId).Nodup
    rw [(hperm.map recordId).nodup_iff, List.map_cons, List.nodup_cons]
    refine ⟨?_, hwell.idsNodup⟩
    intro hmem
    obtain ⟨record, hrecord, heq⟩ := List.mem_map.mp hmem
    exact hfresh record hrecord heq
  · intro record hrecord
    rcases List.mem_cons.mp (hperm.mem_iff.mp hrecord) with heq | hmem
    · exact heq ▸ hlive
    · exact hwell.recordsLive record hmem
  · exact hwell.liveLt

/-! ## Removal and replacement -/

theorem Index.position_eq_some
    {record : ρ} {index : Index ρ} {position : Position ρ}
    (hposition : index.position record = some position) :
    position.tree = index.tree ∧
      recordId position.value = recordId record := by
  obtain ⟨htree, htest⟩ := RbTree.locate_eq_some hposition
  exact ⟨htree, by simpa using htest⟩

theorem Index.position_eq_none
    {record : ρ} {index : Index ρ} (hposition : index.position record = none) :
    ∀ other ∈ index.records, recordId other ≠ recordId record := by
  intro other hother
  simpa using RbTree.locate_eq_none hposition other hother

theorem Index.position_of_mem
    {record : ρ} {index : Index ρ} (hmem : record ∈ index.records) :
    ∃ position, index.position record = some position := by
  cases hposition : index.position record with
  | some position => exact ⟨position, rfl⟩
  | none => exact absurd rfl (Index.position_eq_none hposition record hmem)

/-- The records on either side of a located record have other ids. -/
theorem Index.records_of_position
    {record : ρ} {index : Index ρ} {position : Position ρ}
    (hnodup : (index.records.map recordId).Nodup)
    (hposition : index.position record = some position) :
    ∃ before after,
      index.records = before ++ position.value :: after ∧
      before = position.path.before ++ position.left.inorder ∧
      after = position.right.inorder ++ position.path.after ∧
      (∀ other ∈ before, recordId other ≠ recordId record) ∧
      ∀ other ∈ after, recordId other ≠ recordId record := by
  obtain ⟨htree, hvalue⟩ := Index.position_eq_some hposition
  have hsplit : index.records =
      (position.path.before ++ position.left.inorder) ++
        position.value :: (position.right.inorder ++ position.path.after) := by
    rw [Index.records, ← htree, Position.inorder_tree]
  refine ⟨_, _, hsplit, rfl, rfl, ?_⟩
  rw [hsplit, List.map_append, List.map_cons, List.nodup_middle,
    List.nodup_cons] at hnodup
  rw [← hvalue]
  constructor
  · intro other hother heq
    apply hnodup.1
    rw [List.mem_append, ← heq]
    exact .inl (List.mem_map_of_mem hother)
  · intro other hother heq
    apply hnodup.1
    rw [List.mem_append, ← heq]
    exact .inr (List.mem_map_of_mem hother)

theorem Index.records_rbRemove
    (rb : Rbtree) (record : ρ) {index : Index ρ}
    (hnodup : (index.records.map recordId).Nodup) :
    (index.rbRemove rb record).records =
      index.records.filter fun other => recordId other ≠ recordId record := by
  unfold Index.rbRemove
  cases hposition : index.position record with
  | none =>
      have hother := Index.position_eq_none hposition
      change index.records = _
      exact (List.filter_eq_self.mpr (by simpa using hother)).symm
  | some position =>
      obtain ⟨before, after, hrecords, hbefore, hafter, hfirst, hsecond⟩ :=
        Index.records_of_position hnodup hposition
      have hvalue := (Index.position_eq_some hposition).2
      change (rb.erase position).inorder = _
      rw [rb.inorder_erase, hrecords, List.filter_append, List.filter_cons,
        ← hbefore, ← hafter]
      simp only [hvalue, ne_eq, not_true_eq_false, decide_false,
        Bool.false_eq_true, if_false]
      rw [List.filter_eq_self.mpr (by simpa using hfirst),
        List.filter_eq_self.mpr (by simpa using hsecond)]

@[simp] theorem Index.live_rbRemove
    (rb : Rbtree) (record : ρ) (index : Index ρ) :
    (index.rbRemove rb record).live = index.live := by
  unfold Index.rbRemove
  cases index.position record <;> rfl

@[simp] theorem Index.next_rbRemove
    (rb : Rbtree) (record : ρ) (index : Index ρ) :
    (index.rbRemove rb record).next = index.next := by
  unfold Index.rbRemove
  cases index.position record <;> rfl

theorem Index.faults_rbRemove
    (rb : Rbtree) {record : ρ} {index : Index ρ}
    (hmem : record ∈ index.records) :
    (index.rbRemove rb record).faults = index.faults := by
  obtain ⟨position, hposition⟩ := Index.position_of_mem hmem
  simp [Index.rbRemove, hposition]

theorem map_replace_eq_self
    {values : List ρ} {old new : ρ}
    (hother : ∀ other ∈ values, recordId other ≠ recordId old) :
    (values.map fun other =>
      if recordId other = recordId old then new else other) = values := by
  rw [List.map_congr_left (g := id) fun other hmem => by
    simp [hother other hmem]]
  exact List.map_id values

theorem Index.records_rbReplace
    (old new : ρ) {index : Index ρ}
    (hnodup : (index.records.map recordId).Nodup) :
    (index.rbReplace old new).records =
      index.records.map fun other =>
        if recordId other = recordId old then new else other := by
  unfold Index.rbReplace
  cases hposition : index.position old with
  | none =>
      have hother := Index.position_eq_none hposition
      exact (map_replace_eq_self hother).symm
  | some position =>
      obtain ⟨before, after, hrecords, hbefore, hafter, hfirst, hsecond⟩ :=
        Index.records_of_position hnodup hposition
      have hvalue := (Index.position_eq_some hposition).2
      change (position.replace new).inorder = _
      rw [Position.inorder_replace, hrecords, List.map_append, List.map_cons,
        ← hbefore, ← hafter, if_pos hvalue, map_replace_eq_self hfirst,
        map_replace_eq_self hsecond]

@[simp] theorem Index.live_rbReplace (old new : ρ) (index : Index ρ) :
    (index.rbReplace old new).live = index.live := by
  unfold Index.rbReplace
  cases index.position old <;> rfl

@[simp] theorem Index.next_rbReplace (old new : ρ) (index : Index ρ) :
    (index.rbReplace old new).next = index.next := by
  unfold Index.rbReplace
  cases index.position old <;> rfl

theorem Index.faults_rbReplace
    {old new : ρ} {index : Index ρ} (hmem : old ∈ index.records) :
    (index.rbReplace old new).faults = index.faults := by
  obtain ⟨position, hposition⟩ := Index.position_of_mem hmem
  simp [Index.rbReplace, hposition]

/-! ## Steps between well-formed indexes -/

/-- `after` is `before` without one linked record, erased and freed. -/
structure Index.Discards (record : ρ) (before after : Index ρ) : Prop where
  wellFormed : after.WellFormed
  records : after.records =
    before.records.filter fun other => recordId other ≠ recordId record
  live : after.live = before.live.erase (recordId record)
  next : after.next = before.next
  faults : after.faults = before.faults

theorem Index.WellFormed.discards
    {index : Index ρ} (hwell : index.WellFormed) (rb : Rbtree) {record : ρ}
    (hmem : record ∈ index.records) :
    Index.Discards record index
      ((index.rbRemove rb record).kmemCacheFree record) := by
  have hrecords := Index.records_rbRemove rb record hwell.idsNodup
  refine ⟨⟨?_, ?_, ?_⟩, ?_, ?_, ?_, ?_⟩
  · rw [Index.records_kmemCacheFree, hrecords]
    exact hwell.idsNodup.sublist (List.filter_sublist.map _)
  · intro other hother
    rw [Index.records_kmemCacheFree, hrecords, List.mem_filter] at hother
    rw [Index.live_kmemCacheFree, Index.live_rbRemove, Finset.mem_erase]
    exact ⟨by simpa using hother.2, hwell.recordsLive other hother.1⟩
  · intro id hid
    rw [Index.live_kmemCacheFree, Index.live_rbRemove] at hid
    simpa using hwell.liveLt id (Finset.mem_of_mem_erase hid)
  · rw [Index.records_kmemCacheFree, hrecords]
  · simp
  · simp
  · rw [Index.faults_kmemCacheFree, Index.faults_rbRemove rb hmem]
    simpa using hwell.recordsLive record hmem

theorem Index.Discards.mem_iff
    {record other : ρ} {before after : Index ρ}
    (hdiscards : Index.Discards record before after) :
    other ∈ after.records ↔
      other ∈ before.records ∧ recordId other ≠ recordId record := by
  rw [hdiscards.records, List.mem_filter]
  simp

/-- Every live record is linked. -/
def Index.Owned (index : Index ρ) : Prop :=
  ∀ id ∈ index.live, ∃ record ∈ index.records, recordId record = id

theorem Index.Owned.live_eq
    {index : Index ρ} (howned : index.Owned) (hwell : index.WellFormed) :
    index.live = (index.records.map recordId).toFinset := by
  ext id
  rw [List.mem_toFinset, List.mem_map]
  constructor
  · exact howned id
  · rintro ⟨record, hrecord, heq⟩
    exact heq ▸ hwell.recordsLive record hrecord

theorem owned_erase
    {live : Finset ℕ} {records : List ρ}
    (howned : ∀ id ∈ live, ∃ record ∈ records, recordId record = id) (old : ρ) :
    ∀ id ∈ live.erase (recordId old),
      ∃ record ∈ records.filter fun other => recordId other ≠ recordId old,
        recordId record = id := by
  intro id hid
  obtain ⟨hne, hlive⟩ := Finset.mem_erase.mp hid
  obtain ⟨record, hrecord, heq⟩ := howned id hlive
  refine ⟨record, List.mem_filter.mpr ⟨hrecord, ?_⟩, heq⟩
  exact decide_eq_true fun hsame => hne (heq.symm.trans hsame)

theorem owned_insert
    {live : Finset ℕ} {records after : List ρ} {new : ρ}
    (howned : ∀ id ∈ live, ∃ record ∈ records, recordId record = id)
    (hafter : after.Perm (new :: records)) :
    ∀ id ∈ insert (recordId new) live,
      ∃ record ∈ after, recordId record = id := by
  intro id hid
  rcases Finset.mem_insert.mp hid with heq | hold
  · exact ⟨new, hafter.mem_iff.mpr List.mem_cons_self, heq.symm⟩
  · obtain ⟨record, hrecord, heq⟩ := howned id hold
    exact ⟨record, hafter.mem_iff.mpr (List.mem_cons_of_mem _ hrecord), heq⟩

theorem Index.Owned.discards
    {index after : Index ρ} (howned : index.Owned) {record : ρ}
    (hdiscards : Index.Discards record index after) : after.Owned := by
  unfold Index.Owned
  rw [hdiscards.live, hdiscards.records]
  exact owned_erase howned record

/-- `after` is `before` with one linked record replaced by an unlinked one. -/
structure Index.Replaces (old new : ρ) (before after : Index ρ) : Prop where
  wellFormed : after.WellFormed
  records : after.records = before.records.map fun other =>
    if recordId other = recordId old then new else other
  live : after.live = before.live
  next : after.next = before.next
  faults : after.faults = before.faults

theorem mem_map_replace
    {values : List ρ} {old new other : ρ} (hold : old ∈ values) :
    (other ∈ values.map fun value =>
        if recordId value = recordId old then new else value) ↔
      other = new ∨ other ∈ values ∧ recordId other ≠ recordId old := by
  rw [List.mem_map]
  constructor
  · rintro ⟨value, hmem, heq⟩
    by_cases hid : recordId value = recordId old
    · exact .inl (by simpa [hid] using heq.symm)
    · rw [if_neg hid] at heq
      subst other
      exact .inr ⟨hmem, hid⟩
  · rintro (heq | ⟨hmem, hid⟩)
    · exact ⟨old, hold, by simp [heq]⟩
    · exact ⟨other, hmem, if_neg hid⟩

/-- Replacing a record and taking the replacement out again. -/
theorem filter_map_replace
    {values : List ρ} {old new : ρ}
    (hfresh : ∀ value ∈ values, recordId value ≠ recordId new) :
    ((values.map fun value =>
        if recordId value = recordId old then new else value).filter
      fun value => recordId value ≠ recordId new) =
      values.filter fun value => recordId value ≠ recordId old := by
  induction values with
  | nil => rfl
  | cons value values ih =>
      have hvalue := hfresh value (by simp)
      have hrest := ih fun other hother => hfresh other (by simp [hother])
      rw [List.map_cons, List.filter_cons, List.filter_cons, hrest]
      by_cases hid : recordId value = recordId old
      · simp [hid]
      · simp [hid, hvalue]

theorem Index.WellFormed.replaces
    {index : Index ρ} (hwell : index.WellFormed) {old new : ρ}
    (hold : old ∈ index.records) (hlive : recordId new ∈ index.live)
    (hfresh : ∀ record ∈ index.records, recordId record ≠ recordId new) :
    Index.Replaces old new index (index.rbReplace old new) := by
  have hrecords := Index.records_rbReplace old new hwell.idsNodup
  refine ⟨⟨?_, ?_, ?_⟩, hrecords, by simp, by simp,
    Index.faults_rbReplace hold⟩
  · rw [hrecords]
    refine (List.nodup_map_iff_inj_on (List.Nodup.map_on ?_
      hwell.idsNodup.of_map)).mpr ?_
    · intro first hfirst second hsecond heq
      by_cases hidFirst : recordId first = recordId old <;>
        by_cases hidSecond : recordId second = recordId old
      · exact hwell.eq_of_id_eq hfirst hsecond (hidFirst.trans hidSecond.symm)
      · rw [if_pos hidFirst, if_neg hidSecond] at heq
        exact absurd (congrArg recordId heq.symm) (hfresh second hsecond)
      · rw [if_neg hidFirst, if_pos hidSecond] at heq
        exact absurd (congrArg recordId heq) (hfresh first hfirst)
      · rwa [if_neg hidFirst, if_neg hidSecond] at heq
    · intro first hfirst second hsecond heq
      rcases (mem_map_replace hold).mp hfirst with rfl | ⟨hmemFirst, _⟩ <;>
        rcases (mem_map_replace hold).mp hsecond with rfl | ⟨hmemSecond, _⟩
      · rfl
      · exact absurd heq.symm (hfresh second hmemSecond)
      · exact absurd heq (hfresh first hmemFirst)
      · exact hwell.eq_of_id_eq hmemFirst hmemSecond heq
  · intro record hrecord
    rw [hrecords] at hrecord
    rw [Index.live_rbReplace]
    rcases (mem_map_replace hold).mp hrecord with rfl | ⟨hmem, _⟩
    · exact hlive
    · exact hwell.recordsLive record hmem
  · simpa using hwell.liveLt

/-- Freeing a record that is not linked. -/
theorem Index.WellFormed.free
    {index : Index ρ} (hwell : index.WellFormed) {record : ρ}
    (hunlinked : ∀ other ∈ index.records, recordId other ≠ recordId record) :
    (index.kmemCacheFree record).WellFormed := by
  constructor
  · simpa using hwell.idsNodup
  · intro other hother
    rw [Index.records_kmemCacheFree] at hother
    rw [Index.live_kmemCacheFree, Finset.mem_erase]
    exact ⟨hunlinked other hother, hwell.recordsLive other hother⟩
  · intro id hid
    rw [Index.live_kmemCacheFree] at hid
    simpa using hwell.liveLt id (Finset.mem_of_mem_erase hid)

end LinuxKernelCode.ScanCache
