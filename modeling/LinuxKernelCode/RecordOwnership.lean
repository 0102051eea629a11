import Mathlib.Data.List.Perm.Basic
import Mathlib.Data.List.Nodup
import Mathlib.Logic.Function.Basic

/-!
# Ownership of records by interleaved calls

Calls that run at once hold pointers to records of a shared slab.  A record is
linked in a shared structure or not; a call may allocate a record, look up a
linked one, link, unlink or replace a record, or free it.  For each record the
call that unlinked or freed it is noted.

If no call looks up a record that another call holds, then no call ever holds
a record that another call has unlinked or freed.  The rule `Owned.step` keeps
the invariant behind this through one step of one call.
-/

namespace LinuxKernelCode.Ownership

variable {ι : Type}

/-- What a step of a call does to the records of the slab. -/
inductive Effect
  | quiet
  | allocate (id : ℕ)
  | acquire (id : ℕ)
  | link (id : ℕ)
  | unlink (id : ℕ)
  | swap (old new : ℕ)
  | free (id : ℕ)

/-- The effect of an allocation with its answer. -/
def Effect.ofAlloc : Option ℕ → Effect
  | some id => .allocate id
  | none => .quiet

/-- The effect of a lookup with what it finds. -/
def Effect.ofFound : Option ℕ → Effect
  | some id => .acquire id
  | none => .quiet

theorem Effect.ofFound_eq_acquire {found : Option ℕ} {id : ℕ} :
    Effect.ofFound found = .acquire id ↔ found = some id := by
  cases found with
  | none => simp [Effect.ofFound]
  | some other => simp [Effect.ofFound]

/-- The records that the step takes out of the structure or frees. -/
def Effect.retired : Effect → List ℕ
  | .unlink id => [id]
  | .swap old _ => [old]
  | .free id => [id]
  | _ => []

/-- The effect on the linked records and on the counter of the slab. -/
def Effect.Relates (linked : List ℕ) (next : ℕ) (linkedAfter : List ℕ)
    (nextAfter : ℕ) : Effect → Prop
  | .quiet => linkedAfter = linked ∧ nextAfter = next
  | .allocate id => id = next ∧ linkedAfter = linked ∧ nextAfter = next + 1
  | .acquire id => id ∈ linked ∧ linkedAfter = linked ∧ nextAfter = next
  | .link id => linkedAfter.Perm (id :: linked) ∧ nextAfter = next
  | .unlink id => linkedAfter = linked.filter (· ≠ id) ∧ nextAfter = next
  | .swap old new =>
      linkedAfter = (linked.map fun id => if id = old then new else id) ∧
        nextAfter = next
  | .free _ => linkedAfter = linked ∧ nextAfter = next

/-- The records a call holds: those it has allocated and is still to link,
those that are linked no more, and those that may be linked. -/
structure Holding where
  pending : List ℕ
  detached : List ℕ
  shared : List ℕ

def Holding.none : Holding := ⟨[], [], []⟩

def Holding.loose (holding : Holding) : List ℕ :=
  holding.pending ++ holding.detached

def Holding.held (holding : Holding) : List ℕ :=
  holding.loose ++ holding.shared

theorem Holding.mem_loose {holding : Holding} {id : ℕ} :
    id ∈ holding.loose ↔ id ∈ holding.pending ∨ id ∈ holding.detached :=
  List.mem_append

theorem Holding.loose_mono
    {before after : Holding} (hpending : after.pending ⊆ before.pending)
    (hdetached : after.detached ⊆ before.detached) :
    ∀ id ∈ after.loose, id ∈ before.loose := by
  intro id hid
  rcases Holding.mem_loose.mp hid with hmem | hmem
  · exact Holding.mem_loose.mpr (.inl (hpending hmem))
  · exact Holding.mem_loose.mpr (.inr (hdetached hmem))

theorem Holding.mem_held {holding : Holding} {id : ℕ} :
    id ∈ holding.held ↔
      (id ∈ holding.pending ∨ id ∈ holding.detached) ∨ id ∈ holding.shared := by
  unfold Holding.held
  rw [List.mem_append, Holding.mem_loose]

theorem Holding.held_of_loose {holding : Holding} {id : ℕ}
    (hloose : id ∈ holding.loose) : id ∈ holding.held :=
  Holding.mem_held.mpr (.inl (Holding.mem_loose.mp hloose))

/-- How a call's holding may change with an effect. -/
inductive Transfer : Effect → Holding → Holding → Prop
  | quiet {before after : Holding}
      (hpending : after.pending ⊆ before.pending)
      (hdetached : after.detached ⊆ before.detached)
      (hshared : after.shared ⊆ before.shared) :
      Transfer .quiet before after
  | dismiss {before after : Holding}
      (hpending : after.pending = [])
      (hdetached : after.detached ⊆ before.loose)
      (hshared : after.shared ⊆ before.shared) :
      Transfer .quiet before after
  | allocate {before after : Holding} {id : ℕ}
      (hpending : after.pending ⊆ id :: before.pending)
      (hdetached : after.detached ⊆ before.detached)
      (hshared : after.shared ⊆ before.shared) :
      Transfer (.allocate id) before after
  | acquire {before after : Holding} {id : ℕ}
      (hpending : after.pending ⊆ before.pending)
      (hdetached : after.detached ⊆ before.detached)
      (hshared : after.shared ⊆ id :: before.shared) :
      Transfer (.acquire id) before after
  | link {before after : Holding} {id : ℕ}
      (hmem : id ∈ before.pending)
      (hpending : after.pending = [])
      (hdetached : after.detached ⊆ before.detached)
      (hshared : after.shared ⊆ id :: before.shared) :
      Transfer (.link id) before after
  | unlink {before after : Holding} {id : ℕ}
      (hmem : id ∈ before.shared)
      (hpending : after.pending = [])
      (hdetached : after.detached ⊆ id :: before.detached)
      (hshared : after.shared ⊆ before.shared) :
      Transfer (.unlink id) before after
  | swap {before after : Holding} {old new : ℕ}
      (hnew : new ∈ before.pending)
      (hold : old ∈ before.shared)
      (hpending : after.pending = [])
      (hdetached : after.detached ⊆ old :: before.detached)
      (hshared : after.shared ⊆ new :: before.shared) :
      Transfer (.swap old new) before after
  | free {before after : Holding} {id : ℕ}
      (hmem : id ∈ before.detached)
      (hpending : after.pending = [])
      (hdetached : after.detached ⊆ before.detached)
      (hshared : after.shared ⊆ before.shared) :
      Transfer (.free id) before after

theorem Transfer.refl (holding : Holding) : Transfer .quiet holding holding :=
  .quiet (List.Subset.refl _) (List.Subset.refl _) (List.Subset.refl _)

/-- A call that returns gives up what it holds. -/
theorem Transfer.drop (holding : Holding) : Transfer .quiet holding .none :=
  .quiet (List.nil_subset _) (List.nil_subset _) (List.nil_subset _)

theorem Transfer.of_allocate (id : ℕ) :
    Transfer (.allocate id) .none ⟨[id], [], []⟩ :=
  .allocate (List.Subset.refl _) (List.Subset.refl _) (List.Subset.refl _)

theorem Transfer.of_acquire (pending : List ℕ) (id : ℕ) :
    Transfer (.acquire id) ⟨pending, [], []⟩ ⟨pending, [], [id]⟩ :=
  .acquire (List.Subset.refl _) (List.Subset.refl _) (List.Subset.refl _)

theorem Transfer.of_link (id : ℕ) :
    Transfer (.link id) ⟨[id], [], []⟩ ⟨[], [], [id]⟩ :=
  .link (List.mem_singleton_self _) rfl (List.Subset.refl _)
    (List.Subset.refl _)

theorem Transfer.of_link_drop (id : ℕ) :
    Transfer (.link id) ⟨[id], [], []⟩ .none :=
  .link (List.mem_singleton_self _) rfl (List.Subset.refl _) (List.nil_subset _)

theorem Transfer.of_unlink (detached : List ℕ) (id : ℕ) :
    Transfer (.unlink id) ⟨[], detached, [id]⟩ ⟨[], id :: detached, []⟩ :=
  .unlink (List.mem_singleton_self _) rfl (List.Subset.refl _)
    (List.nil_subset _)

theorem Transfer.of_swap (old new : ℕ) :
    Transfer (.swap old new) ⟨[new], [], [old]⟩ ⟨[], [old], [new]⟩ :=
  .swap (List.mem_singleton_self _) (List.mem_singleton_self _) rfl
    (List.Subset.refl _) (List.cons_subset_cons _ (List.nil_subset _))

theorem Transfer.of_free (detached : List ℕ) (id : ℕ) :
    Transfer (.free id) ⟨[], id :: detached, []⟩ ⟨[], detached, []⟩ :=
  .free List.mem_cons_self rfl (List.subset_cons_self _ _)
    (List.Subset.refl _)

/-- A call that gives up linking a record still has to free it. -/
theorem Transfer.of_dismiss (id : ℕ) :
    Transfer .quiet ⟨[id], [], []⟩ ⟨[], [id], []⟩ :=
  .dismiss rfl (List.Subset.refl _) (List.Subset.refl _)

/-! ## The invariant -/

structure Slab (ι : Type) where
  linked : List ℕ
  next : ℕ
  gone : ℕ → Option ι
  holdings : ι → Holding

def markGone (call : ι) (retired : List ℕ) (gone : ℕ → Option ι) (id : ℕ) :
    Option ι :=
  if id ∈ retired then some call else gone id

theorem markGone_of_notMem {call : ι} {retired : List ℕ} {gone : ℕ → Option ι}
    {id : ℕ} (hid : id ∉ retired) : markGone call retired gone id = gone id :=
  if_neg hid

theorem markGone_of_mem {call : ι} {retired : List ℕ} {gone : ℕ → Option ι}
    {id : ℕ} (hid : id ∈ retired) : markGone call retired gone id = some call :=
  if_pos hid

/-- A part of the holdings that no two calls share is shared by none after one
call has changed its holding. -/
theorem disjoint_update
    [DecidableEq ι] {holdings : ι → Holding} {call : ι} {after : Holding}
    (part : Holding → List ℕ)
    (hbefore : ∀ first second, first ≠ second →
      ∀ id ∈ part (holdings first), id ∉ part (holdings second))
    (hafter : ∀ other, other ≠ call →
      ∀ id ∈ part (holdings other), id ∉ part after)
    (first second : ι) (hne : first ≠ second) :
    ∀ id ∈ part (Function.update holdings call after first),
      id ∉ part (Function.update holdings call after second) := by
  intro id hfirst hsecond
  by_cases hfirstCall : first = call
  · subst first
    rw [Function.update_self] at hfirst
    rw [Function.update_of_ne hne.symm] at hsecond
    exact hafter second hne.symm id hsecond hfirst
  · rw [Function.update_of_ne hfirstCall] at hfirst
    by_cases hsecondCall : second = call
    · subst second
      rw [Function.update_self] at hsecond
      exact hafter first hfirstCall id hfirst hsecond
    · rw [Function.update_of_ne hsecondCall] at hsecond
      exact hbefore first second hne id hfirst hsecond

theorem nodup_map_replace
    {linked : List ℕ} {old new : ℕ} (hnodup : linked.Nodup)
    (hfresh : new ∉ linked) :
    (linked.map fun id => if id = old then new else id).Nodup := by
  apply List.Nodup.map_on _ hnodup
  intro first hfirst second hsecond heq
  split_ifs at heq with hfirstOld hsecondOld hsecondOld
  · exact hfirstOld.trans hsecondOld.symm
  · exact absurd (heq ▸ hsecond) hfresh
  · exact absurd (heq ▸ hfirst) hfresh
  · exact heq

structure Slab.Owned (slab : Slab ι) : Prop where
  linkedNodup : slab.linked.Nodup
  linkedLt : ∀ id ∈ slab.linked, id < slab.next
  linkedKept : ∀ id ∈ slab.linked, slab.gone id = none
  heldLt : ∀ call, ∀ id ∈ (slab.holdings call).held, id < slab.next
  heldKept : ∀ call, ∀ id ∈ (slab.holdings call).held, ∀ other,
    slab.gone id = some other → other = call
  exclusive : ∀ call other, call ≠ other →
    ∀ id ∈ (slab.holdings call).held, id ∉ (slab.holdings other).held
  looseUnlinked : ∀ call, ∀ id ∈ (slab.holdings call).loose, id ∉ slab.linked
  pendingKept : ∀ call, ∀ id ∈ (slab.holdings call).pending,
    slab.gone id = none
  pendingApart : ∀ call, ∀ id ∈ (slab.holdings call).pending,
    id ∉ (slab.holdings call).detached ∧ id ∉ (slab.holdings call).shared
  goneLt : ∀ id other, slab.gone id = some other → id < slab.next

theorem Slab.Owned.start
    {linked : List ℕ} {next : ℕ} (hnodup : linked.Nodup)
    (hlt : ∀ id ∈ linked, id < next) {holdings : ι → Holding}
    (hholdings : ∀ call, holdings call = .none) :
    Slab.Owned ⟨linked, next, fun _ => none, holdings⟩ := by
  have hnone : ∀ call id, id ∉ (holdings call).held := by
    intro call id hid
    rw [hholdings call] at hid
    contradiction
  exact {
    linkedNodup := hnodup
    linkedLt := hlt
    linkedKept := fun _ _ => rfl
    heldLt := fun call id hid => absurd hid (hnone call id)
    heldKept := fun call id hid => absurd hid (hnone call id)
    exclusive := fun call _ _ id hid => absurd hid (hnone call id)
    looseUnlinked := fun call id hid =>
      absurd (Holding.held_of_loose hid) (hnone call id)
    pendingKept := fun _ _ _ => rfl
    pendingApart := fun call id hid =>
      absurd (Holding.mem_held.mpr (.inl (.inl hid))) (hnone call id)
    goneLt := fun _ _ h => absurd h (by simp) }

section Step

variable [DecidableEq ι] {slab : Slab ι} (howned : slab.Owned) (call : ι)

include howned

/-- The invariant after a step of one call, from what the step must respect. -/
theorem Slab.Owned.update
    {linked retired : List ℕ} {next : ℕ} {after : Holding}
    (hnodup : linked.Nodup) (hnext : slab.next ≤ next)
    (hlinked : ∀ id ∈ linked,
      id ∈ slab.linked ∨ id ∈ (slab.holdings call).pending)
    (hkept : ∀ id ∈ linked, id ∉ retired)
    (hretired : ∀ id ∈ retired, id ∈ (slab.holdings call).held)
    (hheld : ∀ id ∈ after.held, id ∈ (slab.holdings call).held ∨
      (id < next ∧ slab.gone id = none ∧
        ∀ other, other ≠ call → id ∉ (slab.holdings other).held))
    (hloose : ∀ id ∈ after.loose, id ∉ linked)
    (hpending : ∀ id ∈ after.pending, slab.gone id = none ∧ id ∉ retired ∧
      id ∉ after.detached ∧ id ∉ after.shared) :
    Slab.Owned ⟨linked, next, markGone call retired slab.gone,
      Function.update slab.holdings call after⟩ := by
  have hpendingHeld : ∀ id ∈ (slab.holdings call).pending,
      id ∈ (slab.holdings call).held :=
    fun id hid => Holding.mem_held.mpr (.inl (.inl hid))
  have hothers : ∀ other, other ≠ call → ∀ id ∈ (slab.holdings other).held,
      id ∉ retired := by
    intro other hne id hid hgone
    exact howned.exclusive other call hne id hid (hretired id hgone)
  constructor
  case linkedNodup => exact hnodup
  case linkedLt =>
    intro id hid
    rcases hlinked id hid with hold | hnew
    · exact Nat.lt_of_lt_of_le (howned.linkedLt id hold) hnext
    · exact Nat.lt_of_lt_of_le (howned.heldLt call id (hpendingHeld id hnew)) hnext
  case linkedKept =>
    intro id hid
    dsimp only
    rw [markGone_of_notMem (hkept id hid)]
    rcases hlinked id hid with hold | hnew
    · exact howned.linkedKept id hold
    · exact howned.pendingKept call id hnew
  case heldLt =>
    apply (Function.forall_update_iff slab.holdings
      fun _ holding => ∀ id ∈ holding.held, id < next).mpr
    constructor
    · intro id hid
      rcases hheld id hid with hold | ⟨hlt, _⟩
      · exact Nat.lt_of_lt_of_le (howned.heldLt call id hold) hnext
      · exact hlt
    · intro other _ id hid
      exact Nat.lt_of_lt_of_le (howned.heldLt other id hid) hnext
  case heldKept =>
    apply (Function.forall_update_iff slab.holdings
      fun other holding => ∀ id ∈ holding.held, ∀ culprit,
        markGone call retired slab.gone id = some culprit → culprit = other).mpr
    constructor
    · intro id hid culprit hgone
      by_cases hmem : id ∈ retired
      · rw [markGone_of_mem hmem] at hgone
        exact (Option.some_inj.mp hgone).symm
      · rw [markGone_of_notMem hmem] at hgone
        rcases hheld id hid with hold | ⟨_, hnone, _⟩
        · exact howned.heldKept call id hold culprit hgone
        · rw [hnone] at hgone
          contradiction
    · intro other hother id hid culprit hgone
      rw [markGone_of_notMem (hothers other hother id hid)] at hgone
      exact howned.heldKept other id hid culprit hgone
  case exclusive =>
    apply disjoint_update Holding.held howned.exclusive
    intro other hother id hid hafter
    rcases hheld id hafter with hold | ⟨_, _, hfree⟩
    · exact howned.exclusive other call hother id hid hold
    · exact hfree other hother hid
  case looseUnlinked =>
    apply (Function.forall_update_iff slab.holdings
      fun _ holding => ∀ id ∈ holding.loose, id ∉ linked).mpr
    refine ⟨hloose, ?_⟩
    intro other hother id hid hmem
    rcases hlinked id hmem with hold | hnew
    · exact howned.looseUnlinked other id hid hold
    · exact howned.exclusive other call hother id (Holding.held_of_loose hid)
        (hpendingHeld id hnew)
  case pendingKept =>
    apply (Function.forall_update_iff slab.holdings fun _ holding =>
      ∀ id ∈ holding.pending, markGone call retired slab.gone id = none).mpr
    constructor
    · intro id hid
      obtain ⟨hnone, hmem, _⟩ := hpending id hid
      rw [markGone_of_notMem hmem]
      exact hnone
    · intro other hother id hid
      rw [markGone_of_notMem (hothers other hother id
        (Holding.mem_held.mpr (.inl (.inl hid))))]
      exact howned.pendingKept other id hid
  case pendingApart =>
    apply (Function.forall_update_iff slab.holdings fun _ holding =>
      ∀ id ∈ holding.pending, id ∉ holding.detached ∧ id ∉ holding.shared).mpr
    constructor
    · intro id hid
      exact (hpending id hid).2.2
    · intro other _
      exact howned.pendingApart other
  case goneLt =>
    intro id culprit hgone
    by_cases hmem : id ∈ retired
    · exact Nat.lt_of_lt_of_le (howned.heldLt call id (hretired id hmem)) hnext
    · dsimp only at hgone
      rw [markGone_of_notMem hmem] at hgone
      exact Nat.lt_of_lt_of_le (howned.goneLt id culprit hgone) hnext

/-- The holding shrinks and the linked records stay. -/
theorem Slab.Owned.shrink
    {retired : List ℕ} {after : Holding}
    (hpending : after.pending ⊆ (slab.holdings call).pending)
    (hdetached : after.detached ⊆ (slab.holdings call).detached)
    (hshared : after.shared ⊆ (slab.holdings call).shared)
    (hretired : ∀ id ∈ retired, id ∈ (slab.holdings call).detached)
    (hkept : ∀ id ∈ after.pending, id ∉ retired) :
    Slab.Owned ⟨slab.linked, slab.next, markGone call retired slab.gone,
      Function.update slab.holdings call after⟩ := by
  have hloose := Holding.loose_mono hpending hdetached
  apply howned.update call howned.linkedNodup (Nat.le_refl _)
  · intro id hid
    exact .inl hid
  · intro id hid hgone
    exact howned.looseUnlinked call id
      (Holding.mem_loose.mpr (.inr (hretired id hgone))) hid
  · intro id hid
    exact Holding.mem_held.mpr (.inl (.inr (hretired id hid)))
  · intro id hid
    left
    rcases Holding.mem_held.mp hid with hmem | hmem
    · exact Holding.held_of_loose (hloose id (Holding.mem_loose.mpr hmem))
    · exact Holding.mem_held.mpr (.inr (hshared hmem))
  · intro id hid
    exact howned.looseUnlinked call id (hloose id hid)
  · intro id hid
    obtain ⟨hnotDetached, hnotShared⟩ :=
      howned.pendingApart call id (hpending hid)
    exact ⟨howned.pendingKept call id (hpending hid), hkept id hid,
      fun hmem => hnotDetached (hdetached hmem),
      fun hmem => hnotShared (hshared hmem)⟩

theorem Slab.Owned.dismiss
    {after : Holding} {linked : List ℕ} {next : ℕ}
    (hpending : after.pending = [])
    (hdetached : after.detached ⊆ (slab.holdings call).loose)
    (hshared : after.shared ⊆ (slab.holdings call).shared)
    (hrelates : (Effect.quiet).Relates slab.linked slab.next linked next) :
    Slab.Owned ⟨linked, next, markGone call (Effect.quiet).retired slab.gone,
      Function.update slab.holdings call after⟩ := by
  obtain ⟨hlinked, hnext⟩ := hrelates
  subst hlinked hnext
  apply howned.update call howned.linkedNodup (Nat.le_refl _)
  · intro id hid
    exact .inl hid
  · simp [Effect.retired]
  · simp [Effect.retired]
  · intro id hid
    left
    rcases Holding.mem_held.mp hid with (hmem | hmem) | hmem
    · simp [hpending] at hmem
    · exact Holding.held_of_loose (hdetached hmem)
    · exact Holding.mem_held.mpr (.inr (hshared hmem))
  · intro id hid
    rcases Holding.mem_loose.mp hid with hmem | hmem
    · simp [hpending] at hmem
    · exact howned.looseUnlinked call id (hdetached hmem)
  · simp [hpending]

theorem Slab.Owned.allocate
    {after : Holding} {linked : List ℕ} {next : ℕ} {id : ℕ}
    (hpending : after.pending ⊆ id :: (slab.holdings call).pending)
    (hdetached : after.detached ⊆ (slab.holdings call).detached)
    (hshared : after.shared ⊆ (slab.holdings call).shared)
    (hrelates : (Effect.allocate id).Relates slab.linked slab.next linked next) :
    Slab.Owned ⟨linked, next, markGone call (Effect.allocate id).retired slab.gone,
      Function.update slab.holdings call after⟩ := by
  obtain ⟨hid, hlinked, hnext⟩ := hrelates
  subst hlinked hnext hid
  have hfresh : ∀ other, slab.next ∉ (slab.holdings other).held :=
    fun other hmem => Nat.lt_irrefl _ (howned.heldLt other _ hmem)
  have hnone : slab.gone slab.next = none := by
    cases hgone : slab.gone slab.next with
    | none => rfl
    | some culprit =>
        exact absurd (howned.goneLt _ culprit hgone) (Nat.lt_irrefl _)
  apply howned.update call howned.linkedNodup (Nat.le_succ _)
  · intro id hid
    exact .inl hid
  · simp [Effect.retired]
  · simp [Effect.retired]
  · intro id hid
    rcases Holding.mem_held.mp hid with (hmem | hmem) | hmem
    · rcases List.mem_cons.mp (hpending hmem) with heq | hold
      · subst id
        exact .inr ⟨Nat.lt_succ_self _, hnone, fun other _ => hfresh other⟩
      · exact .inl (Holding.mem_held.mpr (.inl (.inl hold)))
    · exact .inl (Holding.mem_held.mpr (.inl (.inr (hdetached hmem))))
    · exact .inl (Holding.mem_held.mpr (.inr (hshared hmem)))
  · intro id hid hmem
    rcases Holding.mem_loose.mp hid with hpend | hdet
    · rcases List.mem_cons.mp (hpending hpend) with heq | hold
      · subst id
        exact Nat.lt_irrefl _ (howned.linkedLt _ hmem)
      · exact howned.looseUnlinked call id
          (Holding.mem_loose.mpr (.inl hold)) hmem
    · exact howned.looseUnlinked call id
        (Holding.mem_loose.mpr (.inr (hdetached hdet))) hmem
  · intro id hid
    rcases List.mem_cons.mp (hpending hid) with heq | hold
    · subst id
      refine ⟨hnone, by simp [Effect.retired], ?_, ?_⟩
      · intro hmem
        exact hfresh call (Holding.mem_held.mpr (.inl (.inr (hdetached hmem))))
      · intro hmem
        exact hfresh call (Holding.mem_held.mpr (.inr (hshared hmem)))
    · obtain ⟨hnotDetached, hnotShared⟩ := howned.pendingApart call id hold
      exact ⟨howned.pendingKept call id hold, by simp [Effect.retired],
        fun hmem => hnotDetached (hdetached hmem),
        fun hmem => hnotShared (hshared hmem)⟩

theorem Slab.Owned.acquire
    {after : Holding} {linked : List ℕ} {next : ℕ} {found : ℕ}
    (hpending : after.pending ⊆ (slab.holdings call).pending)
    (hdetached : after.detached ⊆ (slab.holdings call).detached)
    (hshared : after.shared ⊆ found :: (slab.holdings call).shared)
    (hfree : ∀ other, other ≠ call → found ∉ (slab.holdings other).held)
    (hrelates : (Effect.acquire found).Relates slab.linked slab.next linked next) :
    Slab.Owned ⟨linked, next, markGone call (Effect.acquire found).retired slab.gone,
      Function.update slab.holdings call after⟩ := by
  obtain ⟨hfound, hlinked, hnext⟩ := hrelates
  subst hlinked hnext
  have hloose := Holding.loose_mono hpending hdetached
  apply howned.update call howned.linkedNodup (Nat.le_refl _)
  · intro id hid
    exact .inl hid
  · simp [Effect.retired]
  · simp [Effect.retired]
  · intro id hid
    rcases Holding.mem_held.mp hid with hmem | hmem
    · exact .inl (Holding.held_of_loose
        (hloose id (Holding.mem_loose.mpr hmem)))
    · rcases List.mem_cons.mp (hshared hmem) with heq | hold
      · subst id
        exact .inr ⟨howned.linkedLt _ hfound, howned.linkedKept _ hfound,
          hfree⟩
      · exact .inl (Holding.mem_held.mpr (.inr hold))
  · intro id hid
    exact howned.looseUnlinked call id (hloose id hid)
  · intro id hid
    obtain ⟨hnotDetached, hnotShared⟩ :=
      howned.pendingApart call id (hpending hid)
    refine ⟨howned.pendingKept call id (hpending hid),
      by simp [Effect.retired], fun hmem => hnotDetached (hdetached hmem), ?_⟩
    intro hmem
    rcases List.mem_cons.mp (hshared hmem) with heq | hold
    · subst id
      exact howned.looseUnlinked call found
        (Holding.mem_loose.mpr (.inl (hpending hid))) hfound
    · exact hnotShared hold

theorem Slab.Owned.link
    {after : Holding} {linked : List ℕ} {next : ℕ} {new : ℕ}
    (hnew : new ∈ (slab.holdings call).pending)
    (hpending : after.pending = [])
    (hdetached : after.detached ⊆ (slab.holdings call).detached)
    (hshared : after.shared ⊆ new :: (slab.holdings call).shared)
    (hrelates : (Effect.link new).Relates slab.linked slab.next linked next) :
    Slab.Owned ⟨linked, next, markGone call (Effect.link new).retired slab.gone,
      Function.update slab.holdings call after⟩ := by
  obtain ⟨hlinked, hnext⟩ := hrelates
  subst hnext
  obtain ⟨hnotDetached, _⟩ := howned.pendingApart call new hnew
  have hfresh : new ∉ slab.linked :=
    howned.looseUnlinked call new (Holding.mem_loose.mpr (.inl hnew))
  apply howned.update call
  · exact hlinked.nodup_iff.mpr
      (List.nodup_cons.mpr ⟨hfresh, howned.linkedNodup⟩)
  · exact Nat.le_refl _
  · intro id hid
    rcases List.mem_cons.mp (hlinked.mem_iff.mp hid) with heq | hold
    · subst id
      exact .inr hnew
    · exact .inl hold
  · simp [Effect.retired]
  · simp [Effect.retired]
  · intro id hid
    left
    rcases Holding.mem_held.mp hid with (hmem | hmem) | hmem
    · simp [hpending] at hmem
    · exact Holding.mem_held.mpr (.inl (.inr (hdetached hmem)))
    · rcases List.mem_cons.mp (hshared hmem) with heq | hold
      · subst id
        exact Holding.mem_held.mpr (.inl (.inl hnew))
      · exact Holding.mem_held.mpr (.inr hold)
  · intro id hid hmem
    rcases Holding.mem_loose.mp hid with hpend | hdet
    · simp [hpending] at hpend
    · rcases List.mem_cons.mp (hlinked.mem_iff.mp hmem) with heq | hold
      · subst id
        exact hnotDetached (hdetached hdet)
      · exact howned.looseUnlinked call id
          (Holding.mem_loose.mpr (.inr (hdetached hdet))) hold
  · simp [hpending]

theorem Slab.Owned.unlink
    {after : Holding} {linked : List ℕ} {next : ℕ} {old : ℕ}
    (hold : old ∈ (slab.holdings call).shared)
    (hpending : after.pending = [])
    (hdetached : after.detached ⊆ old :: (slab.holdings call).detached)
    (hshared : after.shared ⊆ (slab.holdings call).shared)
    (hrelates : (Effect.unlink old).Relates slab.linked slab.next linked next) :
    Slab.Owned ⟨linked, next, markGone call (Effect.unlink old).retired slab.gone,
      Function.update slab.holdings call after⟩ := by
  obtain ⟨hlinked, hnext⟩ := hrelates
  subst hlinked hnext
  have hremain : ∀ id, id ∈ slab.linked.filter (· ≠ old) ↔
      id ∈ slab.linked ∧ id ≠ old := by simp
  apply howned.update call
  · exact howned.linkedNodup.filter _
  · exact Nat.le_refl _
  · intro id hid
    exact .inl ((hremain id).mp hid).1
  · intro id hid
    simpa [Effect.retired] using ((hremain id).mp hid).2
  · intro id hid
    have heq : id = old := by simpa [Effect.retired] using hid
    exact heq ▸ Holding.mem_held.mpr (.inr hold)
  · intro id hid
    left
    rcases Holding.mem_held.mp hid with (hmem | hmem) | hmem
    · simp [hpending] at hmem
    · rcases List.mem_cons.mp (hdetached hmem) with heq | hdet
      · exact heq ▸ Holding.mem_held.mpr (.inr hold)
      · exact Holding.mem_held.mpr (.inl (.inr hdet))
    · exact Holding.mem_held.mpr (.inr (hshared hmem))
  · intro id hid hmem
    obtain ⟨hlinkedBefore, hne⟩ := (hremain id).mp hmem
    rcases Holding.mem_loose.mp hid with hpend | hdet
    · simp [hpending] at hpend
    · rcases List.mem_cons.mp (hdetached hdet) with heq | hdetBefore
      · exact hne heq
      · exact howned.looseUnlinked call id
          (Holding.mem_loose.mpr (.inr hdetBefore)) hlinkedBefore
  · simp [hpending]

theorem Slab.Owned.swap
    {after : Holding} {linked : List ℕ} {next : ℕ} {old new : ℕ}
    (hnew : new ∈ (slab.holdings call).pending)
    (hold : old ∈ (slab.holdings call).shared)
    (hpending : after.pending = [])
    (hdetached : after.detached ⊆ old :: (slab.holdings call).detached)
    (hshared : after.shared ⊆ new :: (slab.holdings call).shared)
    (hrelates : (Effect.swap old new).Relates slab.linked slab.next linked next) :
    Slab.Owned ⟨linked, next, markGone call (Effect.swap old new).retired slab.gone,
      Function.update slab.holdings call after⟩ := by
  obtain ⟨hlinked, hnext⟩ := hrelates
  subst hlinked hnext
  obtain ⟨hnotDetached, hnotShared⟩ := howned.pendingApart call new hnew
  have hne : new ≠ old := fun heq => hnotShared (heq ▸ hold)
  have hfresh : new ∉ slab.linked :=
    howned.looseUnlinked call new (Holding.mem_loose.mpr (.inl hnew))
  have hmemAfter : ∀ id, id ∈ (slab.linked.map fun id =>
      if id = old then new else id) → id = new ∨ id ∈ slab.linked ∧ id ≠ old := by
    intro id hid
    obtain ⟨source, hsource, heq⟩ := List.mem_map.mp hid
    by_cases hsame : source = old
    · rw [if_pos hsame] at heq
      exact .inl heq.symm
    · rw [if_neg hsame] at heq
      exact .inr ⟨heq ▸ hsource, heq ▸ hsame⟩
  apply howned.update call
  · exact nodup_map_replace howned.linkedNodup hfresh
  · exact Nat.le_refl _
  · intro id hid
    rcases hmemAfter id hid with heq | ⟨hbefore, _⟩
    · exact .inr (heq ▸ hnew)
    · exact .inl hbefore
  · intro id hid
    have hnotOld : id ≠ old := by
      rcases hmemAfter id hid with heq | ⟨_, hnotOld⟩
      · exact heq ▸ hne
      · exact hnotOld
    simpa [Effect.retired] using hnotOld
  · intro id hid
    have heq : id = old := by simpa [Effect.retired] using hid
    exact heq ▸ Holding.mem_held.mpr (.inr hold)
  · intro id hid
    left
    rcases Holding.mem_held.mp hid with (hmem | hmem) | hmem
    · simp [hpending] at hmem
    · rcases List.mem_cons.mp (hdetached hmem) with heq | hdet
      · exact heq ▸ Holding.mem_held.mpr (.inr hold)
      · exact Holding.mem_held.mpr (.inl (.inr hdet))
    · rcases List.mem_cons.mp (hshared hmem) with heq | hshare
      · exact heq ▸ Holding.mem_held.mpr (.inl (.inl hnew))
      · exact Holding.mem_held.mpr (.inr hshare)
  · intro id hid hmem
    rcases Holding.mem_loose.mp hid with hpend | hdet
    · simp [hpending] at hpend
    · rcases List.mem_cons.mp (hdetached hdet) with heq | hdetBefore
      · rcases hmemAfter id hmem with hnewId | ⟨_, hnotOld⟩
        · exact hne (hnewId.symm.trans heq)
        · exact hnotOld heq
      · rcases hmemAfter id hmem with hnewId | ⟨hbefore, _⟩
        · exact hnotDetached (hnewId ▸ hdetBefore)
        · exact howned.looseUnlinked call id
            (Holding.mem_loose.mpr (.inr hdetBefore)) hbefore
  · simp [hpending]

/-- One step of one call keeps the invariant, provided it does not look up a
record that another call holds. -/
theorem Slab.Owned.step
    {effect : Effect} {after : Holding} {linked : List ℕ} {next : ℕ}
    (htransfer : Transfer effect (slab.holdings call) after)
    (hrelates : effect.Relates slab.linked slab.next linked next)
    (hfree : ∀ id, effect = .acquire id → ∀ other, other ≠ call →
      id ∉ (slab.holdings other).held) :
    Slab.Owned ⟨linked, next, markGone call effect.retired slab.gone,
      Function.update slab.holdings call after⟩ := by
  cases htransfer with
  | quiet hpending hdetached hshared =>
      obtain ⟨hlinked, hnext⟩ := hrelates
      subst hlinked hnext
      exact howned.shrink call hpending hdetached hshared
        (by simp [Effect.retired]) (by simp [Effect.retired])
  | dismiss hpending hdetached hshared =>
      exact howned.dismiss call hpending hdetached hshared hrelates
  | allocate hpending hdetached hshared =>
      exact howned.allocate call hpending hdetached hshared hrelates
  | acquire hpending hdetached hshared =>
      exact howned.acquire call hpending hdetached hshared (hfree _ rfl) hrelates
  | link hnew hpending hdetached hshared =>
      exact howned.link call hnew hpending hdetached hshared hrelates
  | unlink hold hpending hdetached hshared =>
      exact howned.unlink call hold hpending hdetached hshared hrelates
  | swap hnew hold hpending hdetached hshared =>
      exact howned.swap call hnew hold hpending hdetached hshared hrelates
  | @free _ _ old hold hpending hdetached hshared =>
      obtain ⟨hlinked, hnext⟩ := hrelates
      subst hlinked hnext
      apply howned.shrink call
      · simp [hpending]
      · exact hdetached
      · exact hshared
      · intro id hid
        have heq : id = old := by simpa [Effect.retired] using hid
        exact heq ▸ hold
      · simp [hpending]

end Step

/-! ## Records still to be linked

Whatever the calls look up, a record that a call has allocated and not linked
yet is unlinked and no other call's. -/

structure Slab.Reserved (slab : Slab ι) : Prop where
  linkedNodup : slab.linked.Nodup
  linkedLt : ∀ id ∈ slab.linked, id < slab.next
  pendingLt : ∀ call, ∀ id ∈ (slab.holdings call).pending, id < slab.next
  pendingUnlinked : ∀ call, ∀ id ∈ (slab.holdings call).pending,
    id ∉ slab.linked
  pendingApart : ∀ call other, call ≠ other →
    ∀ id ∈ (slab.holdings call).pending, id ∉ (slab.holdings other).pending

theorem Slab.Reserved.start
    {linked : List ℕ} {next : ℕ} (hnodup : linked.Nodup)
    (hlt : ∀ id ∈ linked, id < next) {gone : ℕ → Option ι}
    {holdings : ι → Holding} (hholdings : ∀ call, holdings call = .none) :
    Slab.Reserved ⟨linked, next, gone, holdings⟩ := by
  have hnone : ∀ call id, id ∉ (holdings call).pending := by
    intro call id hid
    rw [hholdings call] at hid
    contradiction
  exact {
    linkedNodup := hnodup
    linkedLt := hlt
    pendingLt := fun call id hid => absurd hid (hnone call id)
    pendingUnlinked := fun call id hid => absurd hid (hnone call id)
    pendingApart := fun call _ _ id hid => absurd hid (hnone call id) }

section Reserve

variable [DecidableEq ι] {slab : Slab ι} (hreserved : slab.Reserved) (call : ι)

include hreserved

theorem Slab.Reserved.update
    {linked : List ℕ} {next : ℕ} {gone : ℕ → Option ι} {after : Holding}
    (hnodup : linked.Nodup) (hnext : slab.next ≤ next)
    (hlinked : ∀ id ∈ linked,
      id ∈ slab.linked ∨ id ∈ (slab.holdings call).pending)
    (hpending : ∀ id ∈ after.pending, id ∉ linked ∧
      (id ∈ (slab.holdings call).pending ∨ slab.next ≤ id ∧ id < next)) :
    Slab.Reserved ⟨linked, next, gone,
      Function.update slab.holdings call after⟩ := by
  constructor
  case linkedNodup => exact hnodup
  case linkedLt =>
    intro id hid
    rcases hlinked id hid with hold | hnew
    · exact Nat.lt_of_lt_of_le (hreserved.linkedLt id hold) hnext
    · exact Nat.lt_of_lt_of_le (hreserved.pendingLt call id hnew) hnext
  case pendingLt =>
    apply (Function.forall_update_iff slab.holdings
      fun _ holding => ∀ id ∈ holding.pending, id < next).mpr
    constructor
    · intro id hid
      rcases (hpending id hid).2 with hold | ⟨_, hlt⟩
      · exact Nat.lt_of_lt_of_le (hreserved.pendingLt call id hold) hnext
      · exact hlt
    · intro other _ id hid
      exact Nat.lt_of_lt_of_le (hreserved.pendingLt other id hid) hnext
  case pendingUnlinked =>
    apply (Function.forall_update_iff slab.holdings
      fun _ holding => ∀ id ∈ holding.pending, id ∉ linked).mpr
    constructor
    · intro id hid
      exact (hpending id hid).1
    · intro other hother id hid hmem
      rcases hlinked id hmem with hold | hnew
      · exact hreserved.pendingUnlinked other id hid hold
      · exact hreserved.pendingApart other call hother id hid hnew
  case pendingApart =>
    apply disjoint_update Holding.pending hreserved.pendingApart
    intro other hother id hid hafter
    rcases (hpending id hafter).2 with hold | ⟨hge, _⟩
    · exact hreserved.pendingApart other call hother id hid hold
    · exact absurd (hreserved.pendingLt other id hid) (Nat.not_lt.mpr hge)

/-- A step that links nothing and allocates nothing. -/
theorem Slab.Reserved.keep
    {linked : List ℕ} {gone : ℕ → Option ι} {after : Holding}
    (hlinked : linked.Sublist slab.linked)
    (hpending : after.pending ⊆ (slab.holdings call).pending) :
    Slab.Reserved ⟨linked, slab.next, gone,
      Function.update slab.holdings call after⟩ := by
  apply hreserved.update call (hlinked.nodup hreserved.linkedNodup)
    (Nat.le_refl _)
  · intro id hid
    exact .inl (hlinked.subset hid)
  · intro id hid
    exact ⟨fun hmem => hreserved.pendingUnlinked call id (hpending hid)
      (hlinked.subset hmem), .inl (hpending hid)⟩

theorem Slab.Reserved.link
    {linked : List ℕ} {gone : ℕ → Option ι} {after : Holding} {new : ℕ}
    (hnew : new ∈ (slab.holdings call).pending) (hpending : after.pending = [])
    (hlinked : linked.Perm (new :: slab.linked)) :
    Slab.Reserved ⟨linked, slab.next, gone,
      Function.update slab.holdings call after⟩ := by
  apply hreserved.update call _ (Nat.le_refl _)
  · intro id hid
    rcases List.mem_cons.mp (hlinked.mem_iff.mp hid) with heq | hold
    · exact .inr (heq ▸ hnew)
    · exact .inl hold
  · simp [hpending]
  · rw [hlinked.nodup_iff, List.nodup_cons]
    exact ⟨hreserved.pendingUnlinked call new hnew, hreserved.linkedNodup⟩

theorem Slab.Reserved.swap
    {gone : ℕ → Option ι} {after : Holding} {old new : ℕ}
    (hnew : new ∈ (slab.holdings call).pending) (hpending : after.pending = []) :
    Slab.Reserved ⟨slab.linked.map fun id => if id = old then new else id,
      slab.next, gone, Function.update slab.holdings call after⟩ := by
  have hfresh := hreserved.pendingUnlinked call new hnew
  apply hreserved.update call _ (Nat.le_refl _)
  · intro id hid
    obtain ⟨source, hsource, heq⟩ := List.mem_map.mp hid
    split_ifs at heq
    · exact .inr (heq ▸ hnew)
    · exact .inl (heq ▸ hsource)
  · simp [hpending]
  · exact nodup_map_replace hreserved.linkedNodup hfresh

/-- Every step of every call keeps the reservations. -/
theorem Slab.Reserved.step
    {effect : Effect} {after : Holding} {linked : List ℕ} {next : ℕ}
    {gone : ℕ → Option ι}
    (htransfer : Transfer effect (slab.holdings call) after)
    (hrelates : effect.Relates slab.linked slab.next linked next) :
    Slab.Reserved ⟨linked, next, gone,
      Function.update slab.holdings call after⟩ := by
  cases htransfer with
  | quiet hpending =>
      obtain ⟨hlinked, hnext⟩ := hrelates
      subst hlinked hnext
      exact hreserved.keep call (List.Sublist.refl _) hpending
  | dismiss hpending =>
      obtain ⟨hlinked, hnext⟩ := hrelates
      subst hlinked hnext
      exact hreserved.keep call (List.Sublist.refl _) (by simp [hpending])
  | allocate hpending =>
      obtain ⟨hid, hlinked, hnext⟩ := hrelates
      subst hid hlinked hnext
      apply hreserved.update call hreserved.linkedNodup (Nat.le_succ _)
      · intro id hid
        exact .inl hid
      · intro id hid
        rcases List.mem_cons.mp (hpending hid) with heq | hold
        · subst id
          exact ⟨fun hmem => absurd (hreserved.linkedLt _ hmem) (Nat.lt_irrefl _),
            .inr ⟨Nat.le_refl _, Nat.lt_succ_self _⟩⟩
        · exact ⟨hreserved.pendingUnlinked call id hold, .inl hold⟩
  | acquire hpending =>
      obtain ⟨_, hlinked, hnext⟩ := hrelates
      subst hlinked hnext
      exact hreserved.keep call (List.Sublist.refl _) hpending
  | link hnew hpending =>
      obtain ⟨hlinked, hnext⟩ := hrelates
      subst hnext
      exact hreserved.link call hnew hpending hlinked
  | unlink _ hpending =>
      obtain ⟨hlinked, hnext⟩ := hrelates
      subst hlinked hnext
      exact hreserved.keep call List.filter_sublist (by simp [hpending])
  | swap hnew _ hpending =>
      obtain ⟨hlinked, hnext⟩ := hrelates
      subst hlinked hnext
      exact hreserved.swap call hnew hpending
  | free _ hpending =>
      obtain ⟨hlinked, hnext⟩ := hrelates
      subst hlinked hnext
      exact hreserved.keep call (List.Sublist.refl _) (by simp [hpending])

end Reserve

end LinuxKernelCode.Ownership
