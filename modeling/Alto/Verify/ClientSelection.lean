import Alto.App.ClientSelection

/-!
# The choice of a client's home ISP

The loop takes the first file in which the address has an internal PID, or none at all:
`ERR_UNKNOWN_PID` passes the test, although `PID::INVALID` is external.
-/

namespace Alto.App

namespace P4PClientPeerSelectionLocation

variable (behind : Behind) (load : List Char → Option ISPPIDMap) (address : IPPrefix)

/-- A file maps the address to an internal PID. -/
structure IsHome (filename : List Char) (pidmap : ISPPIDMap) (pid : Int) : Prop where
  loads : load filename = some pidmap
  found : (pidmap.lookup behind address).1 = pid
  nonneg : 0 ≤ pid
  internal : (pidmap.getPIDInfo pid).external = false

/-- No file of a list maps the address to an internal PID. -/
def NoHome (filenames : List (List Char)) : Prop :=
  ∀ filename ∈ filenames, ∀ pidmap pid, ¬IsHome behind load address filename pidmap pid

/-- A file loads and does not contain the address. -/
def Misses (filename : List Char) : Prop :=
  ∃ pidmap, load filename = some pidmap ∧ (pidmap.lookup behind address).1 < 0

/-- The first file that maps the address to an internal PID is selected, and none if there is none. -/
def Chooses (filenames : List (List Char)) (self : P4PClientPeerSelectionLocation) : Prop :=
  (∃ before filename after pidmap, filenames = before ++ filename :: after ∧
    NoHome behind load address before ∧
    ∃ pid, IsHome behind load address filename pidmap pid ∧ self.pidmap = some pidmap ∧
      self.selfPid = pid) ∨
  NoHome behind load address filenames ∧ self.pidmap = none

/-- No file up to the first with an internal PID loads without the address. -/
def NoMiss (filenames : List (List Char)) : Prop :=
  ∀ before filename after, filenames = before ++ filename :: after →
    NoHome behind load address before → ¬Misses behind load address filename

variable {behind load address} {filename : List Char} {filenames : List (List Char)}
  {self : P4PClientPeerSelectionLocation}

theorem noHome_cons : NoHome behind load address (filename :: filenames) ↔
    (∀ pidmap pid, ¬IsHome behind load address filename pidmap pid) ∧
      NoHome behind load address filenames :=
  List.forall_mem_cons

theorem chooses_cons (h : ∀ pidmap pid, ¬IsHome behind load address filename pidmap pid) :
    Chooses behind load address (filename :: filenames) self ↔
      Chooses behind load address filenames self := by
  refine or_congr ?_ (and_congr_left' (noHome_cons.trans (and_iff_right h)))
  constructor
  · rintro ⟨before, f, after, pidmap, heq, hno, pid, hhome, hself⟩
    cases before with
    | nil =>
      obtain ⟨rfl, rfl⟩ := List.cons.inj heq
      exact absurd hhome (h pidmap pid)
    | cons g before =>
      obtain ⟨rfl, rfl⟩ := List.cons.inj heq
      exact ⟨before, f, after, pidmap, rfl, (noHome_cons.1 hno).2, pid, hhome, hself⟩
  · rintro ⟨before, f, after, pidmap, rfl, hno, hself⟩
    exact ⟨filename :: before, f, after, pidmap, rfl, noHome_cons.2 ⟨h, hno⟩, hself⟩

theorem noMiss_cons (h : ∀ pidmap pid, ¬IsHome behind load address filename pidmap pid) :
    NoMiss behind load address (filename :: filenames) ↔
      ¬Misses behind load address filename ∧ NoMiss behind load address filenames := by
  constructor
  · intro hmiss
    refine ⟨hmiss [] filename filenames rfl nofun, ?_⟩
    rintro before f after rfl hno
    exact hmiss (filename :: before) f after rfl (noHome_cons.2 ⟨h, hno⟩)
  · rintro ⟨hfirst, hrest⟩ before f after heq hno
    cases before with
    | nil =>
      obtain ⟨rfl, rfl⟩ := List.cons.inj heq
      exact hfirst
    | cons g before =>
      obtain ⟨rfl, rfl⟩ := List.cons.inj heq
      exact hrest before f after rfl (noHome_cons.1 hno).2

/-- The loop, which starts without a home. -/
theorem lookUpHome_chooses_iff (hself : self.pidmap = none) :
    Chooses behind load address filenames (lookUpHome behind load address filenames self) ↔
      NoMiss behind load address filenames := by
  induction filenames with
  | nil =>
    refine iff_of_true (.inr ⟨nofun, hself⟩) ?_
    intro before f after heq
    cases before <;> cases heq
  | cons filename filenames ih =>
    rw [lookUpHome]
    split
    · next hload =>
      have hno : ∀ pidmap pid, ¬IsHome behind load address filename pidmap pid := by
        intro pidmap pid h
        rw [h.loads] at hload
        cases hload
      have hmiss : ¬Misses behind load address filename := by
        rintro ⟨pidmap, h, -⟩
        rw [h] at hload
        cases hload
      rw [chooses_cons hno, noMiss_cons hno, and_iff_right hmiss]
      exact ih
    next pidmap hload =>
    have hmap : ∀ {pidmap'}, load filename = some pidmap' → pidmap' = pidmap :=
      fun h => Option.some.inj (h.symm.trans hload)
    dsimp only
    by_cases hneg : (pidmap.lookup behind address).1 < 0
    · -- the address is not in the file, and the test passes
      have hno : ∀ pidmap pid, ¬IsHome behind load address filename pidmap pid := by
        intro pidmap' pid h
        obtain rfl := hmap h.loads
        have := h.found
        have := h.nonneg
        omega
      rw [if_pos (.inr hneg), noMiss_cons hno]
      refine iff_of_false ?_ fun h => h.1 ⟨pidmap, hload, hneg⟩
      rintro (⟨before, f, after, pidmap', -, -, pid, hhome, -, hpid⟩ | ⟨-, hnone⟩)
      · have hpid : (pidmap.lookup behind address).1 = pid := hpid
        have := hhome.nonneg
        omega
      · cases hnone
    by_cases hinternal :
        (pidmap.getPIDInfo (pidmap.lookup behind address).1).external = false
    · have hhome : IsHome behind load address filename pidmap (pidmap.lookup behind address).1 :=
        ⟨hload, rfl, not_lt.1 hneg, hinternal⟩
      rw [if_pos (.inl hinternal)]
      refine iff_of_true (.inl ⟨[], filename, filenames, pidmap, rfl, nofun, _, hhome, rfl, rfl⟩) ?_
      rintro before f after heq hno ⟨pidmap', hload', hneg'⟩
      cases before with
      | nil =>
        obtain ⟨rfl, rfl⟩ := List.cons.inj heq
        obtain rfl := hmap hload'
        exact hneg hneg'
      | cons g before =>
        obtain ⟨rfl, rfl⟩ := List.cons.inj heq
        exact (noHome_cons.1 hno).1 _ _ hhome
    · have hno : ∀ pidmap pid, ¬IsHome behind load address filename pidmap pid := by
        intro pidmap' pid h
        obtain rfl := hmap h.loads
        obtain rfl := h.found
        exact hinternal h.internal
      have hmiss : ¬Misses behind load address filename := by
        rintro ⟨pidmap', h, hneg'⟩
        obtain rfl := hmap h
        exact hneg hneg'
      rw [if_neg (not_or.2 ⟨hinternal, hneg⟩), chooses_cons hno, noMiss_cons hno,
        and_iff_right hmiss]
      exact ih

/-- The constructor selects the right file just if no file up to it misses the address. -/
theorem client_home_iff (behind : Behind)
    (readFromFile : List Char → Option (List (PID × List IPPrefix))) (memory : Double × Double)
    (address : IPPrefix) (filenames : List (List Char)) (intraPidPct intraIspPct : Double) :
    Chooses behind (loadP4PInfo behind readFromFile) address filenames
        (new behind readFromFile memory address filenames intraPidPct intraIspPct) ↔
      NoMiss behind (loadP4PInfo behind readFromFile) address filenames :=
  lookUpHome_chooses_iff rfl

/-- A file without PIDs is selected. -/
theorem client_home_wrong :
    ¬∀ (behind : Behind) (readFromFile : List Char → Option (List (PID × List IPPrefix)))
      (memory : Double × Double) (address : IPPrefix) (filenames : List (List Char))
      (intraPidPct intraIspPct : Double),
      Chooses behind (loadP4PInfo behind readFromFile) address filenames
        (new behind readFromFile memory address filenames intraPidPct intraIspPct) := by
  intro hall
  have hchooses := hall (fun _ _ => false) (fun _ => some []) (0, 0)
    ⟨.inet, List.replicate 32 false, by decide⟩ [['a']] 0 0
  rw [new, lookUpHome_chooses_iff rfl] at hchooses
  exact hchooses [] ['a'] [] rfl nofun ⟨_, rfl, by decide⟩

end P4PClientPeerSelectionLocation

end Alto.App
