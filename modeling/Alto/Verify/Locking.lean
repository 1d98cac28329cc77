import Alto.Lib.Run
import Alto.Server.Locking

/-!
# Exclusion of write locks

An `UpgradedWriteLock` owns the mutex uniquely and so excludes every other lock. A `BlockWriteLock`
owns it shared, like a read lock, and excludes nothing: exclusion and the check in `begin_write`
only hold along runs in which the threads keep other locks away from it themselves (`Careful`).
-/

namespace Alto.Locking

open Lib

/-- A lock object exists on the object. -/
def LocalObject.Holds (obj : LocalObject) (i : Nat) (a : Lock) : Prop := obj.locks[i]? = some a

instance (obj : LocalObject) (i : Nat) (a : Lock) : Decidable (obj.Holds i a) :=
  inferInstanceAs (Decidable (_ = _))

/-- While a writable lock is held, every lock on the object has the same owner. -/
def Exclusive (obj : LocalObject) : Prop :=
  ∀ i j a b, obj.Holds i a → a.cls.writable = true → obj.Holds j b → b.owner = a.owner

/-- No lock whose constructor has yet to call `begin_write` will find `writing_` set. -/
def BeginsClean (obj : LocalObject) : Prop :=
  ∀ i a, obj.Holds i a → a.phase = .acquired → obj.writing = false

/-- What the threads must see to themselves: a `BlockWriteLock` is only constructed while no other
owner holds a lock and no write lock is held; while it is held, no other owner constructs a lock;
and no second `UpgradedWriteLock` is built from one `UpgradableReadLock`. -/
def Careful (obj : LocalObject) : Step → Prop
  | .acquire _ owner cls =>
    if cls = .blockWriteLock then ∀ j b, obj.Holds j b → b.owner = owner ∧ b.cls.writable = false
    else ∀ j b, obj.Holds j b → b.cls = .blockWriteLock → b.owner = owner
  | .upgrade _ src => ∀ u, obj.Holds src u → u.own = .upgrade
  | _ => True

/-- A read lock that owns the mutex as its class says. -/
structure Plain (a : Lock) : Prop where
  reads : a.cls.writable = false
  own : a.own = a.cls.ownership
  source : a.source = none
  phase : a.phase = .active

/-- Upgrade ownership is held at most once. -/
def UpgradeOnce (obj : LocalObject) : Prop :=
  ∀ i j a b, obj.Holds i a → obj.Holds j b → a.own = .upgrade → b.own = .upgrade → i = j

/-- The states of careful runs: no write lock; one `BlockWriteLock` among read locks of its owner;
one `UpgradedWriteLock` with its source and nothing else. -/
inductive Inv (obj : LocalObject) : Prop
  | free (plain : ∀ i a, obj.Holds i a → Plain a) (once : UpgradeOnce obj)
      (hw : obj.writing = false)
  | block (id : Nat) (l : Lock) (hl : obj.Holds id l) (hcls : l.cls = .blockWriteLock)
      (hown : l.own = .shared) (hsrc : l.source = none)
      (plain : ∀ i a, obj.Holds i a → i ≠ id → Plain a ∧ a.owner = l.owner)
      (once : UpgradeOnce obj) (hw : obj.writing = true ↔ l.phase = .active)
  | upgraded (id src : Nat) (l u : Lock) (hne : id ≠ src)
      (hlocks : ∀ i a, obj.Holds i a ↔ (i = src ∧ a = u) ∨ (i = id ∧ a = l))
      (hcls : l.cls = .upgradedWriteLock) (hown : l.own = .unique) (hsrc : l.source = some src)
      (hu : Plain { u with own := .upgrade }) (hun : u.own = .none) (howner : l.owner = u.owner)
      (hw : obj.writing = true ↔ l.phase = .active)

theorem inv_init : Inv .init := by
  have hno : ∀ i a, ¬ LocalObject.init.Holds i a := by
    intro i a h
    simp [LocalObject.Holds, LocalObject.init] at h
  exact .free (fun i a h => absurd h (hno i a)) (fun i _ a _ h => absurd h (hno i a)) rfl

section

variable {obj : LocalObject}

theorem LocalObject.Holds.inj {i : Nat} {a b : Lock} (ha : obj.Holds i a) (hb : obj.Holds i b) :
    a = b := Option.some.inj (ha.symm.trans hb)

theorem Inv.exclusive (h : Inv obj) : Exclusive obj := by
  intro i j a b ha hwa hb
  cases h with
  | free plain => simp [(plain i a ha).reads] at hwa
  | block id l hl _ _ _ plain =>
    obtain rfl : i = id := by
      by_contra hne
      simp [(plain i a ha hne).1.reads] at hwa
    obtain rfl := ha.inj hl
    by_cases hj : j = i
    · subst hj
      rw [hb.inj ha]
    · exact (plain j b hb hj).2
  | upgraded id src l u _ hlocks _ _ _ hu _ howner =>
    have hwu : u.cls.writable = false := hu.reads
    rcases (hlocks i a).1 ha with ⟨-, rfl⟩ | ⟨-, rfl⟩
    · simp [hwu] at hwa
    · rcases (hlocks j b).1 hb with ⟨-, rfl⟩ | ⟨-, rfl⟩
      · exact howner.symm
      · rfl

theorem Inv.beginsClean (h : Inv obj) : BeginsClean obj := by
  intro i a ha hp
  cases h with
  | free _ _ hw => exact hw
  | block id l hl _ _ _ plain _ hw =>
    by_cases hi : i = id
    · subst hi
      rw [ha.inj hl] at hp
      simpa [hp] using hw
    · simp [(plain i a ha hi).1.phase] at hp
  | upgraded id src l u _ hlocks _ _ _ hu _ _ hw =>
    rcases (hlocks i a).1 ha with ⟨-, rfl⟩ | ⟨-, rfl⟩
    · have := hu.phase
      simp [hp] at this
    · simpa [hp] using hw

/-! ## Steps -/

theorem holds_insert {locks : StdMap Nat Lock} {id i : Nat} {l a : Lock} {w : Bool} :
    (⟨locks.insert id l, w⟩ : LocalObject).Holds i a ↔
      (i = id ∧ a = l) ∨ (i ≠ id ∧ (⟨locks, w⟩ : LocalObject).Holds i a) := by
  simp only [LocalObject.Holds, StdMap.get_insert]
  grind

theorem holds_erase {locks : StdMap Nat Lock} {id i : Nat} {a : Lock} {w : Bool} :
    (⟨locks.erase id, w⟩ : LocalObject).Holds i a ↔
      i ≠ id ∧ (⟨locks, w⟩ : LocalObject).Holds i a := by
  simp only [LocalObject.Holds, StdMap.get_erase]
  grind

/-- Whether an ownership can be granted next to another. -/
def Compatible (new held : Ownership) : Prop :=
  match new with
  | .none => True
  | .shared => held ≠ .unique
  | .upgrade => held ≠ .unique ∧ held ≠ .upgrade
  | .unique => held = .none

theorem grants_iff {locks : StdMap Nat Lock} {w : Bool} {o : Ownership} :
    grants (locks.toList.map (·.2.own)) o = true ↔
      ∀ j b, (⟨locks, w⟩ : LocalObject).Holds j b → Compatible o b.own := by
  simp only [LocalObject.Holds, ← Std.ExtTreeMap.mem_toList_iff_getElem?_eq_some, Compatible]
  cases o <;> simp [grants]

theorem UpgradeOnce.insert {locks : StdMap Nat Lock} {w : Bool} {id : Nat} {l : Lock}
    (h : UpgradeOnce ⟨locks, w⟩)
    (hl : l.own = .upgrade → ∀ j b, (⟨locks, w⟩ : LocalObject).Holds j b → b.own ≠ .upgrade) :
    UpgradeOnce ⟨locks.insert id l, w⟩ := by
  intro i j a b ha hb hau hbu
  rcases holds_insert.1 ha with ⟨rfl, rfl⟩ | ⟨-, ha'⟩
  · rcases holds_insert.1 hb with ⟨rfl, -⟩ | ⟨-, hb'⟩
    · rfl
    · exact absurd hbu (hl hau j b hb')
  · rcases holds_insert.1 hb with ⟨rfl, rfl⟩ | ⟨-, hb'⟩
    · exact absurd hau (hl hbu i a ha')
    · exact h i j a b ha' hb' hau hbu

theorem UpgradeOnce.mono {obj' : LocalObject} (h : UpgradeOnce obj)
    (hsub : ∀ i a, obj'.Holds i a → ∃ a', obj.Holds i a' ∧ a'.own = a.own) :
    UpgradeOnce obj' := by
  intro i j a b ha hb hau hbu
  obtain ⟨a', ha', ea⟩ := hsub i a ha
  obtain ⟨b', hb', eb⟩ := hsub j b hb
  exact h i j a' b' ha' hb' (ea.trans hau) (eb.trans hbu)

theorem ownership_of_reads {cls : LockClass} (h : cls.writable = false) :
    cls.ownership = .shared ∨ cls.ownership = .upgrade := by
  cases cls <;> simp_all [LockClass.ownership, LockClass.writable]

theorem Inv.acquire {locks : StdMap Nat Lock} {w : Bool} (h : Inv ⟨locks, w⟩) {id owner : Nat}
    {cls : LockClass} (hnew : ∀ a, ¬ (⟨locks, w⟩ : LocalObject).Holds id a)
    (hcls : cls ≠ .upgradedWriteLock)
    (hgr : ∀ j b, (⟨locks, w⟩ : LocalObject).Holds j b → Compatible cls.ownership b.own)
    (hok : Careful ⟨locks, w⟩ (.acquire id owner cls)) :
    Inv ⟨locks.insert id ⟨owner, cls, cls.ownership, none,
      if cls.writable then .acquired else .active⟩, w⟩ := by
  have hup : ∀ j b, (⟨locks, w⟩ : LocalObject).Holds j b → cls.ownership = .upgrade →
      b.own ≠ .upgrade := by
    intro j b hb hc
    have := hgr j b hb
    rw [hc] at this
    exact this.2
  have hplain : cls.writable = false →
      Plain ⟨owner, cls, cls.ownership, none, if cls.writable then .acquired else .active⟩ :=
    fun hr => ⟨hr, rfl, rfl, by simp [hr]⟩
  simp only [Careful] at hok
  by_cases hblk : cls = .blockWriteLock
  · -- only read locks of the same owner are there
    subst hblk
    rw [if_pos rfl] at hok
    cases h with
    | free plain once hw =>
      refine .block id _ (holds_insert.2 (Or.inl ⟨rfl, rfl⟩)) rfl rfl rfl ?_ (once.insert ?_) ?_
      · intro i a ha hi
        rcases holds_insert.1 ha with ⟨rfl, -⟩ | ⟨-, ha'⟩
        · exact absurd rfl hi
        · exact ⟨plain i a ha', (hok i a ha').1⟩
      · exact fun hc => nomatch hc
      · simpa [LockClass.writable] using hw
    | block id' l hl hcls' =>
      have := (hok id' l hl).2
      rw [hcls'] at this
      cases this
    | upgraded id' src l u _ hlocks hcls' =>
      have := (hok id' l ((hlocks id' l).2 (Or.inr ⟨rfl, rfl⟩))).2
      rw [hcls'] at this
      cases this
  · rw [if_neg hblk] at hok
    have hr : cls.writable = false := by
      cases cls <;> simp_all [LockClass.writable]
    cases h with
    | free plain once hw =>
      refine .free ?_ (once.insert fun hc j b hb => hup j b hb hc) hw
      intro i a ha
      rcases holds_insert.1 ha with ⟨-, rfl⟩ | ⟨-, ha'⟩
      · exact hplain hr
      · exact plain i a ha'
    | block id' l hl hcls' hown hsrc plain once hw =>
      have hne : id' ≠ id := by
        rintro rfl
        exact hnew l hl
      refine .block id' l (holds_insert.2 (Or.inr ⟨hne, hl⟩)) hcls' hown hsrc ?_
        (once.insert fun hc j b hb => hup j b hb hc) hw
      intro i a ha hi
      rcases holds_insert.1 ha with ⟨-, rfl⟩ | ⟨-, ha'⟩
      · exact ⟨hplain hr, (hok id' l hl hcls').symm⟩
      · exact plain i a ha' hi
    | upgraded id' src l u _ hlocks _ hown =>
      -- unique ownership grants nothing
      have hc := hgr id' l ((hlocks id' l).2 (Or.inr ⟨rfl, rfl⟩))
      rw [hown] at hc
      rcases ownership_of_reads hr with ho | ho
      · rw [ho] at hc
        exact absurd rfl hc
      · rw [ho] at hc
        exact absurd rfl hc.1

theorem Inv.upgrade {locks : StdMap Nat Lock} {w : Bool} (h : Inv ⟨locks, w⟩) {id src : Nat}
    {u : Lock} (hu : (⟨locks, w⟩ : LocalObject).Holds src u)
    (hnew : ∀ a, ¬ (⟨locks, w⟩ : LocalObject).Holds id a) (hup : u.own = .upgrade)
    (hgr : ∀ j b, (⟨locks.insert src { u with own := .none }, w⟩ : LocalObject).Holds j b →
      b.own = .none) :
    Inv ⟨(locks.insert src { u with own := .none }).insert id
      ⟨u.owner, .upgradedWriteLock, .unique, some src, .acquired⟩, w⟩ := by
  have hne : id ≠ src := by
    rintro rfl
    exact hnew u hu
  -- no other lock owns anything, and every lock of a careful run but a source owns something
  have hothers : ∀ j b, j ≠ src → (⟨locks, w⟩ : LocalObject).Holds j b → b.own = .none :=
    fun j b hj hb => hgr j b (holds_insert.2 (Or.inr ⟨hj, hb⟩))
  have hplain : ∀ {a : Lock}, Plain a → a.own ≠ .none := by
    intro a hp hn
    rw [hp.own] at hn
    rcases ownership_of_reads hp.reads with ho | ho <;> rw [ho] at hn <;> cases hn
  cases h with
  | free plain once hw =>
    have hpu := plain src u hu
    refine .upgraded id src ⟨u.owner, .upgradedWriteLock, .unique, some src, .acquired⟩
      { u with own := .none } hne ?_ rfl rfl rfl ?_ rfl rfl ?_
    · intro i a
      rw [holds_insert, holds_insert]
      constructor
      · rintro (h | ⟨hi, h | ⟨hs, ha⟩⟩)
        · exact Or.inr h
        · exact Or.inl h
        · exact absurd (hothers i a hs ha) (hplain (plain i a ha))
      · rintro (⟨rfl, rfl⟩ | h)
        · exact Or.inr ⟨Ne.symm hne, Or.inl ⟨rfl, rfl⟩⟩
        · exact Or.inl h
    · exact ⟨hpu.reads, hup ▸ hpu.own, hpu.source, hpu.phase⟩
    · simpa using hw
  | block id' l hl _ hown =>
    have hne' : id' ≠ src := by
      rintro rfl
      rw [hl.inj hu, hup] at hown
      cases hown
    rw [hothers id' l hne' hl] at hown
    cases hown
  | upgraded id' src' l v _ hlocks _ hown _ _ hvn =>
    rcases (hlocks src u).1 hu with ⟨-, rfl⟩ | ⟨-, rfl⟩
    · rw [hup] at hvn
      cases hvn
    · rw [hup] at hown
      cases hown

/-- `begin_write` and `end_write` move the write lock from one phase to the next. -/
theorem Inv.move {locks : StdMap Nat Lock} {w : Bool} (h : Inv ⟨locks, w⟩) {id : Nat} {l : Lock}
    (hl : (⟨locks, w⟩ : LocalObject).Holds id l) (hwr : l.cls.writable = true) (ph : Phase) :
    Inv ⟨locks.insert id { l with phase := ph }, decide (ph = .active)⟩ := by
  cases h with
  | free plain once hw =>
    rw [(plain id l hl).reads] at hwr
    cases hwr
  | block id' l' hl' hcls hown hsrc plain once hw =>
    obtain rfl : id = id' := by
      by_contra hne
      rw [(plain id l hl hne).1.reads] at hwr
      cases hwr
    obtain rfl := hl.inj hl'
    refine .block id _ (holds_insert.2 (Or.inl ⟨rfl, rfl⟩)) hcls hown hsrc ?_ ?_ (by simp)
    · intro i a ha hi
      rcases holds_insert.1 ha with ⟨rfl, -⟩ | ⟨-, ha'⟩
      · exact absurd rfl hi
      · exact plain i a ha' hi
    · refine once.mono fun i a ha => ?_
      rcases holds_insert.1 ha with ⟨rfl, rfl⟩ | ⟨-, ha'⟩
      · exact ⟨l, hl, rfl⟩
      · exact ⟨a, ha', rfl⟩
  | upgraded id' src l' u hne hlocks hcls hown hsrc hu hun howner hw =>
    rcases (hlocks id l).1 hl with ⟨-, rfl⟩ | ⟨rfl, rfl⟩
    · have : l.cls.writable = false := hu.reads
      rw [this] at hwr
      cases hwr
    · refine .upgraded id src { l with phase := ph } u hne ?_ hcls hown hsrc hu hun howner (by simp)
      intro i a
      rw [holds_insert]
      constructor
      · rintro (h | ⟨hi, ha⟩)
        · exact Or.inr h
        · rcases (hlocks i a).1 ha with h | ⟨h, -⟩
          · exact Or.inl h
          · exact absurd h hi
      · rintro (⟨rfl, rfl⟩ | h)
        · exact Or.inr ⟨Ne.symm hne, (hlocks _ _).2 (Or.inl ⟨rfl, rfl⟩)⟩
        · exact Or.inl h

theorem Inv.release {locks : StdMap Nat Lock} {w : Bool} (h : Inv ⟨locks, w⟩) {id : Nat} {l : Lock}
    (hl : (⟨locks, w⟩ : LocalObject).Holds id l) (hph : l.phase = .ended ∨ l.cls.writable = false)
    (hsrc : ∀ j b, (⟨locks, w⟩ : LocalObject).Holds j b → b.source ≠ some id) :
    Inv ⟨dropLock locks id l, w⟩ := by
  cases h with
  | free plain once hw =>
    have hp := plain id l hl
    simp only [dropLock, giveBack, hp.source]
    exact .free (fun i a ha => plain i a (holds_erase.1 ha).2)
      (once.mono fun i a ha => ⟨a, (holds_erase.1 ha).2, rfl⟩) hw
  | block id' l' hl' hcls hown hsrc' plain once hw =>
    by_cases hid : id = id'
    · subst hid
      obtain rfl := hl.inj hl'
      simp only [dropLock, giveBack, hsrc']
      refine .free (fun i a ha => ?_) (once.mono fun i a ha => ⟨a, (holds_erase.1 ha).2, rfl⟩) ?_
      · exact (plain i a (holds_erase.1 ha).2 (holds_erase.1 ha).1).1
      · rcases hph with hph | hph
        · simpa [hph] using hw
        · rw [hcls] at hph
          cases hph
    · simp only [dropLock, giveBack, (plain id l hl hid).1.source]
      exact .block id' l' (holds_erase.2 ⟨Ne.symm hid, hl'⟩) hcls hown hsrc'
        (fun i a ha hi => plain i a (holds_erase.1 ha).2 hi)
        (once.mono fun i a ha => ⟨a, (holds_erase.1 ha).2, rfl⟩) hw
  | upgraded id' src l' u hne hlocks hcls hown hsrc' hu hun howner hw =>
    rcases (hlocks id l).1 hl with ⟨rfl, rfl⟩ | ⟨rfl, rfl⟩
    · exact absurd hsrc' (hsrc id' l' ((hlocks _ _).2 (Or.inr ⟨rfl, rfl⟩)))
    · -- the source owns the upgrade again
      have hdrop : ∀ i a, (⟨dropLock locks id l, w⟩ : LocalObject).Holds i a ↔
          i = src ∧ a = { u with own := .upgrade } := by
        intro i a
        have hget : locks[src]? = some u := (hlocks src u).2 (Or.inl ⟨rfl, rfl⟩)
        simp only [dropLock, giveBack, hsrc', hown, ↓reduceIte, LocalObject.Holds,
          Std.ExtTreeMap.getElem?_modify, compare_eq_iff_eq, StdMap.get_erase, if_neg hne]
        by_cases hi : src = i
        · subst hi
          simp [hget, eq_comm]
        · refine iff_of_false (fun ha => ?_) (fun ha => hi ha.1.symm)
          rw [if_neg hi] at ha
          split at ha
          · cases ha
          · next hid =>
            rcases (hlocks i a).1 ha with h | h
            · exact hi h.1.symm
            · exact hid h.1.symm
      refine .free (fun i a ha => ?_) (fun i j a b ha hb _ _ => ?_) ?_
      · rw [((hdrop i a).1 ha).2]
        exact hu
      · rw [((hdrop i a).1 ha).1, ((hdrop j b).1 hb).1]
      · rcases hph with hph | hph
        · simpa [hph] using hw
        · rw [hcls] at hph
          cases hph

/-- A careful step keeps the invariant. -/
theorem Inv.step {obj' : LocalObject} (h : Inv obj) {s : Step} (hok : Careful obj s)
    (hs : step obj s = some obj') : Inv obj' := by
  obtain ⟨locks, w⟩ := obj
  have hmem : ∀ {i}, i ∉ locks → ∀ a, ¬ (⟨locks, w⟩ : LocalObject).Holds i a :=
    fun hi a ha => hi (StdMap.mem_iff_get.2 ⟨a, ha⟩)
  cases s with
  | acquire id owner cls =>
    simp only [Locking.step] at hs
    split at hs
    · next hc =>
      cases hs
      exact h.acquire (hmem hc.1) hc.2.1 (grants_iff.1 hc.2.2) hok
    · cases hs
  | tryFail owner =>
    cases hs
    exact h
  | upgrade id src =>
    simp only [Locking.step] at hs
    split at hs
    · next u hu =>
      rw [if_pos (hok u hu)] at hs
      split at hs
      · next hc =>
        split at hs
        · next hgr =>
          cases hs
          exact h.upgrade hu (hmem hc.1) (hok u hu) (grants_iff.1 hgr)
        · cases hs
      · cases hs
    · cases hs
  | beginWrite id =>
    simp only [Locking.step] at hs
    split at hs
    · next l hl =>
      split at hs
      · next hp =>
        have hw : w = false := h.beginsClean id l hl hp
        subst hw
        cases hs
        have hwr : l.cls.writable = true := by
          cases h with
          | free plain => simp [(plain id l hl).phase] at hp
          | block id' l' hl' hcls _ _ plain =>
            by_cases hid : id = id'
            · subst hid
              rw [Option.some.inj (hl.symm.trans hl'), hcls]
              rfl
            · simp [(plain id l hl hid).1.phase] at hp
          | upgraded id' src l' u _ hlocks hcls _ _ hu =>
            rcases (hlocks id l).1 hl with ⟨-, rfl⟩ | ⟨-, rfl⟩
            · have := hu.phase
              simp [hp] at this
            · rw [hcls]
              rfl
        exact h.move hl hwr .active
      · cases hs
    · cases hs
  | endWrite id =>
    simp only [Locking.step] at hs
    split at hs
    · next l hl =>
      split at hs
      · next hc =>
        cases hs
        exact h.move hl hc.2.1 .ended
      · cases hs
    · cases hs
  | release id =>
    simp only [Locking.step] at hs
    split at hs
    · next l hl =>
      split at hs
      · next hc =>
        cases hs
        refine h.release hl hc.1 fun j b hb => ?_
        have := List.all_eq_true.1 hc.2 (j, b) (Std.ExtTreeMap.mem_toList_iff_getElem?_eq_some.2 hb)
        simpa using this
      · cases hs
    · cases hs

end

/-! ## Runs -/

/-- Along every run of threads that construct `BlockWriteLock`s only apart from other owners' locks
and one `UpgradedWriteLock` at a time from a source, write locks exclude and `begin_write` never
finds `writing_` set. -/
theorem write_locks_exclude {steps : List Step} {obj : LocalObject}
    (hr : Run step Careful .init steps obj) : Exclusive obj ∧ BeginsClean obj := by
  have h : Inv obj := hr.invariant inv_init fun _ _ _ hinv hok hs => hinv.step hok hs
  exact ⟨h.exclusive, h.beginsClean⟩

theorem forall_holds_iff {obj : LocalObject} {P : Nat → Lock → Prop} :
    (∀ j b, obj.Holds j b → P j b) ↔ ∀ x ∈ obj.locks.toList, P x.1 x.2 :=
  ⟨fun h x hx => h x.1 x.2 (Std.ExtTreeMap.mem_toList_iff_getElem?_eq_some.1 hx),
    fun h j b hb => h (j, b) (Std.ExtTreeMap.mem_toList_iff_getElem?_eq_some.2 hb)⟩

instance (obj : LocalObject) : (step : Step) → Decidable (Careful obj step)
  | .acquire _ owner cls =>
    if h : cls = .blockWriteLock then
      decidable_of_iff (∀ x ∈ obj.locks.toList, x.2.owner = owner ∧ x.2.cls.writable = false)
        (by simp only [Careful, if_pos h, forall_holds_iff])
    else
      decidable_of_iff (∀ x ∈ obj.locks.toList, x.2.cls = .blockWriteLock → x.2.owner = owner)
        (by simp only [Careful, if_neg h, forall_holds_iff])
  | .upgrade _ src => inferInstanceAs (Decidable (∀ u ∈ obj.locks[src]?, u.own = .upgrade))
  | .tryFail _ => .isTrue trivial
  | .beginWrite _ => .isTrue trivial
  | .endWrite _ => .isTrue trivial
  | .release _ => .isTrue trivial

/-- The first owner reads and then writes, the second one reads before and after that. -/
def twoOwners : List Step :=
  [.acquire 1 1 .upgradableReadLock, .acquire 2 2 .blockReadLock, .release 2, .upgrade 3 1,
    .beginWrite 3, .endWrite 3, .release 3, .acquire 4 2 .blockReadLock, .release 4, .upgrade 5 1,
    .beginWrite 5]

/-- The object behind these steps: the first owner writes. -/
def upgraded : LocalObject :=
  ⟨((∅ : StdMap Nat Lock).insert 1 ⟨1, .upgradableReadLock, .none, none, .active⟩).insert 5
    ⟨1, .upgradedWriteLock, .unique, some 1, .active⟩, true⟩

theorem write_locks_exclude_two :
    Run step Careful .init twoOwners upgraded ∧ Exclusive upgraded ∧ BeginsClean upgraded := by
  have hr : Run step Careful .init twoOwners upgraded := by
    iterate 10 refine .cons (by decide) rfl ?_
    exact .cons (by decide) rfl (.nil _)
  exact ⟨hr, write_locks_exclude hr⟩

/-- While one owner holds a `BlockWriteLock`, another gets a `BlockReadLock`, or a `BlockWriteLock`
whose `begin_write` finds `writing_` set. -/
theorem blockWriteLock_does_not_exclude :
    (∃ obj, Run step (fun _ _ => True) .init
      [.acquire 1 1 .blockWriteLock, .beginWrite 1, .acquire 2 2 .blockReadLock] obj ∧
        ¬ Exclusive obj) ∧
    (∃ obj, Run step (fun _ _ => True) .init
      [.acquire 1 1 .blockWriteLock, .beginWrite 1, .acquire 2 2 .blockWriteLock] obj ∧
        ¬ BeginsClean obj) := by
  refine ⟨⟨_, .cons trivial rfl (.cons trivial rfl (.cons trivial rfl (.nil _))), ?_⟩,
    ⟨_, .cons trivial rfl (.cons trivial rfl (.cons trivial rfl (.nil _))), ?_⟩⟩
  · intro h
    exact absurd (h 1 2 ⟨1, .blockWriteLock, .shared, none, .active⟩
      ⟨2, .blockReadLock, .shared, none, .active⟩ (by decide) rfl (by decide)) (by decide)
  · intro h
    exact absurd (h 2 ⟨2, .blockWriteLock, .shared, none, .acquired⟩ (by decide) rfl) (by decide)

end Alto.Locking
