import Alto.Portal.CostHandlers
import Alto.Verify.ViewInterdomain
import Alto.Verify.ViewUpdate

/-!
# The costs of published PIDs after an update

A PID is published if it has prefixes. The update derives the external flag of a PID from its nodes, and
everything else knows the PID with the flag it was configured with.
-/

namespace Alto.ViewUpdate

open Lib PIDMatrix Portal

variable {libs : ViewLibs} {plugin : NetState → PinnedPIDSet → PIDMatrix} {net : NetState}
  {view : View} {agg : PIDAggregation} {routing : PIDRouting} {prefixes : PIDMap}
  {link intra inter : PIDMatrix} {u : ViewUpdate} {found : FoundPids} {pids : PinnedPIDSet}
  {e e₁ e₂ : PID × PIDRecord}

/-! ## The PIDs that an update finds -/

theorem resolved_of_prepare
    (hprep : prepare libs net view agg = .ok (some (u, found, pids))) : Resolved net agg := by
  by_contra hno
  have hempty : ∃ e ∈ viewRecords agg,
      (recordVertices net.doCopyProperties e.2).isEmpty = true := by
    unfold Resolved at hno
    push Not at hno
    obtain ⟨e, he, hne⟩ := hno
    exact ⟨e, he, by simpa using hne⟩
  have hfind := findPids_throws (u := { netOrig := net, net := net.doCopyProperties })
    (namesAlive_copy net) hempty
  simp only [prepare, hfind, bind, Except.bind] at hprep
  cases hprep

theorem found_eq_viewPids (hprep : prepare libs net view agg = .ok (some (u, found, pids))) :
    found = viewPids net agg := by
  obtain ⟨cur, hfind, -⟩ := findPids_ok
    (u := { netOrig := net, net := net.doCopyProperties }) (namesAlive_copy net)
    (resolved_of_prepare hprep)
  simp only [prepare, hfind, bind, Except.bind] at hprep
  split at hprep
  · cases hprep
  · split at hprep
    · cases hprep
    · split at hprep
      · cases hprep
      · obtain ⟨-, hres⟩ := Prod.mk.inj (Option.some.inj (Except.ok.inj hprep))
        exact (Prod.mk.inj hres).1.symm

/-! ## Published PIDs -/

/-- A PID of the view that has prefixes. -/
def Published (prefixes : PIDMap) (agg : PIDAggregation) (e : PID × PIDRecord) : Prop :=
  e ∈ viewRecords agg ∧ prefixes.hasPrefixes e.1 = true

/-- Two published PIDs that are not both external. -/
structure CostPair (prefixes : PIDMap) (agg : PIDAggregation) (e₁ e₂ : PID × PIDRecord) : Prop where
  src : Published prefixes agg e₁
  dst : Published prefixes agg e₂
  internal : ¬ (e₁.1.external = true ∧ e₂.1.external = true)

/-- The flag of the PID is the one that its nodes give it. -/
def FlagAgrees (net : NetState) (e : PID × PIDRecord) : Prop :=
  recordPid net.doCopyProperties e = e.1

/-- Every pair of published PIDs that are not both external has a cost, and the PIDs under which the
update has looked up their link pDistance and their weight are the ones these are set for. -/
def CostsAvailable (prefixes : PIDMap) (net : NetState) (agg : PIDAggregation)
    (routing : PIDRouting) (link intra inter : PIDMatrix) : Prop :=
  ∀ e₁ e₂, CostPair prefixes agg e₁ e₂ →
    (CostView.mk prefixes intra inter).getPDistance e₁.1 e₂.1 ≠ .nan ∧
    link.getByPid (recordPid net.doCopyProperties e₁) (recordPid net.doCopyProperties e₂) .nan =
      link.getByPid e₁.1 e₂.1 .nan ∧
    routing.getWeight (recordPid net.doCopyProperties e₁) (recordPid net.doCopyProperties e₂) =
      routing.getWeight e₁.1 e₂.1

/-- The flags of a pair agree, and an internal pair has a number as its cost. -/
structure FlagsOk (net : NetState) (inp : Inputs) (e₁ e₂ : PID × PIDRecord) : Prop where
  src : FlagAgrees net e₁
  dst : FlagAgrees net e₂
  number : e₁.1.external = false → e₂.1.external = false → intraSpec inp e₁.1 e₂.1 ≠ .nan

/-- No two PIDs of the view differ in their flag only. -/
def Twinless (agg : PIDAggregation) : Prop :=
  ∀ e₁ ∈ viewRecords agg, ∀ e₂ ∈ viewRecords agg, e₁.1.isp = e₂.1.isp → e₁.1.num = e₂.1.num →
    e₁ = e₂

/-! ## The costs of a pair -/

/-- What a successful update leaves. -/
structure Updated (inp : Inputs) (net : NetState) (agg : PIDAggregation)
    (intra inter : PIDMatrix) : Prop where
  intraPids : intra.HasPids (viewPids net agg).internal
  rows : ∀ a ∈ (viewPids net agg).internal, ∀ b ∈ (viewPids net agg).internal,
    intra.entry a b = some (intraSpec inp a b)
  interPids : inter.HasPids (viewPids net agg).all
  rule : ∀ s d, Cross (viewPids net agg).internal (viewPids net agg).external s d →
    BorderOk inp (viewPids net agg).internal s d → ∃ v, v ≠ .nan ∧ inter.entry s d = some v

theorem updated_of_computeResult
    (hprep : prepare libs net view agg = .ok (some (u, found, pids)))
    (hrun : computeResult libs plugin net view agg routing link = .ok (some (intra, inter))) :
    Updated (updateInputs libs plugin u pids view routing link) net agg intra inter := by
  obtain ⟨hpids, hunique⟩ := prepare_viewPids hprep
  obtain ⟨hverify, m, hm, rfl, rfl⟩ := computeResult_matrices hprep hrun
  obtain rfl := found_eq_viewPids hprep
  obtain ⟨hfilled, hhandled⟩ :=
    computePDistances_handled hpids (hopsPinned_of_verify hverify) hunique hm
  refine ⟨hfilled.pids, fun a ha b hb =>
    hfilled.rows a (Std.ExtTreeSet.mem_toList.2 ha) b hb, hhandled.pids, fun s d hc hok => ?_⟩
  obtain ⟨v, -, hv, hentry⟩ := hhandled.entry_rule hc hok
  exact ⟨v, hv, hentry⟩

/-- A PID whose flag agrees is a PID that the update finds. -/
theorem mem_viewPids (he : e ∈ viewRecords agg) (hflag : FlagAgrees net e) :
    (e.1.external = false → e.1 ∈ (viewPids net agg).internal) ∧
      (e.1.external = true → e.1 ∈ (viewPids net agg).external) := by
  have hint : e.1 ∈ (viewPids net agg).internal ↔ _ := (mem_foundPids e.1).1
  have hext : e.1 ∈ (viewPids net agg).external ↔ _ := (mem_foundPids e.1).2.1
  exact ⟨fun h => hint.2 ⟨h, e, he, hflag⟩, fun h => hext.2 ⟨h, e, he, hflag⟩⟩

/-- A PID that the update finds has a flag that agrees, unless it has a twin. -/
theorem flagAgrees_of_mem (htwin : Twinless agg) (he : e ∈ viewRecords agg)
    (hmem : e.1 ∈ (viewPids net agg).all) : FlagAgrees net e := by
  obtain ⟨e', he', hpid⟩ := (mem_foundPids e.1).2.2.1 hmem
  have hisp : e'.1.isp = e.1.isp := (congrArg PID.isp hpid :)
  have hnum : e'.1.num = e.1.num := (congrArg PID.num hpid :)
  obtain rfl := htwin e' he' e he hisp hnum
  exact hpid

theorem getByPid_ne_nan {m : PIDMatrix} {S : StdSet PID} (h : m.HasPids S) {s d : PID}
    (hne : m.getByPid s d .nan ≠ .nan) : s ∈ S ∧ d ∈ S :=
  not_not.1 fun hno => hne (h.getByPid_of_not_mem hno)

/-- Where the flags agree, the numbers of the matrices are costs. -/
theorem Updated.cost_ne_nan {inp : Inputs} (h : Updated inp net agg intra inter)
    (hpair : CostPair prefixes agg e₁ e₂) (hflags : FlagsOk net inp e₁ e₂)
    (hborder : e₁.1.external ≠ e₂.1.external →
      BorderOk inp (viewPids net agg).internal e₁.1 e₂.1) :
    (CostView.mk prefixes intra inter).getPDistance e₁.1 e₂.1 ≠ .nan := by
  obtain ⟨hint₁, hext₁⟩ := mem_viewPids hpair.src.1 hflags.src
  obtain ⟨hint₂, hext₂⟩ := mem_viewPids hpair.dst.1 hflags.dst
  have hprefixes : ¬ (¬ prefixes.hasPrefixes e₁.1 ∨ ¬ prefixes.hasPrefixes e₂.1) := by
    rintro (hno | hno)
    · exact hno hpair.src.2
    · exact hno hpair.dst.2
  rw [CostView.getPDistance, if_neg hpair.internal, if_neg hprefixes]
  split
  · next hboth =>
    have hf₁ : e₁.1.external = false := by simpa using hboth.1
    have hf₂ : e₂.1.external = false := by simpa using hboth.2
    rw [CostView.getPDistanceIntradomain, getByPid_eq, h.rows _ (hint₁ hf₁) _ (hint₂ hf₂)]
    exact hflags.number hf₁ hf₂
  · next hboth =>
    have hcross : Cross (viewPids net agg).internal (viewPids net agg).external e₁.1 e₂.1 ∧
        (if e₁.1.external then e₂.1 else e₁.1) ∈ (viewPids net agg).internal ∧
        e₁.1.external ≠ e₂.1.external := by
      cases hf₁ : e₁.1.external with
      | true =>
        have hf₂ : e₂.1.external = false := by
          simpa [hf₁] using hpair.internal
        exact ⟨.inr ⟨hext₁ hf₁, hint₂ hf₂⟩, hint₂ hf₂, by rw [hf₂]; simp⟩
      | false =>
        have hf₂ : e₂.1.external = true := by
          simpa [hf₁] using hboth
        exact ⟨.inl ⟨hint₁ hf₁, hext₂ hf₂⟩, hint₁ hf₁, by rw [hf₂]; simp⟩
    obtain ⟨hcross, hmem, hne⟩ := hcross
    obtain ⟨v, hv, hentry⟩ := h.rule _ _ hcross (hborder hne)
    obtain ⟨row, hrow, heq⟩ := exists_index hmem
    have hfind := h.intraPids.find hrow
    rw [heq] at hfind
    rw [CostView.getPDistanceInterdomain, hfind, getByPid_eq, hentry]
    exact hv

/-- Without twins, a pair with a cost has flags that agree. -/
theorem Updated.flagsOk {inp : Inputs} (h : Updated inp net agg intra inter) (htwin : Twinless agg)
    (hpair : CostPair prefixes agg e₁ e₂)
    (hcost : (CostView.mk prefixes intra inter).getPDistance e₁.1 e₂.1 ≠ .nan) :
    FlagsOk net inp e₁ e₂ := by
  have hint : ∀ {p}, p ∈ (viewPids net agg).internal → p ∈ (viewPids net agg).all := fun hp =>
    (mem_foundPids _).2.2.2 ((mem_foundPids _).1.1 hp).2
  have hprefixes : ¬ (¬ prefixes.hasPrefixes e₁.1 ∨ ¬ prefixes.hasPrefixes e₂.1) := by
    rintro (hno | hno)
    · exact hno hpair.src.2
    · exact hno hpair.dst.2
  rw [CostView.getPDistance, if_neg hpair.internal, if_neg hprefixes] at hcost
  split at hcost
  · rw [CostView.getPDistanceIntradomain] at hcost
    obtain ⟨h₁, h₂⟩ := getByPid_ne_nan h.intraPids hcost
    refine ⟨flagAgrees_of_mem htwin hpair.src.1 (hint h₁),
      flagAgrees_of_mem htwin hpair.dst.1 (hint h₂), fun _ _ => ?_⟩
    rw [getByPid_eq, h.rows _ h₁ _ h₂] at hcost
    exact hcost
  · next hboth =>
    rw [CostView.getPDistanceInterdomain] at hcost
    split at hcost
    · exact absurd rfl hcost
    · obtain ⟨h₁, h₂⟩ := getByPid_ne_nan h.interPids hcost
      refine ⟨flagAgrees_of_mem htwin hpair.src.1 h₁, flagAgrees_of_mem htwin hpair.dst.1 h₂,
        fun hf₁ hf₂ => absurd ⟨by simpa using hf₁, by simpa using hf₂⟩ hboth⟩

/-! ## The costs after an update -/

/-- Where the flags of the published PIDs agree with their nodes and the border of each pair is as it
should be, every such pair has a cost; and no pair has one that has a PID with another flag. -/
theorem published_costs
    (hprep : prepare libs net view agg = .ok (some (u, found, pids)))
    (hrun : computeResult libs plugin net view agg routing link = .ok (some (intra, inter))) :
    ((∀ e₁ e₂, CostPair prefixes agg e₁ e₂ →
        FlagsOk net (updateInputs libs plugin u pids view routing link) e₁ e₂ ∧
        (e₁.1.external ≠ e₂.1.external →
          BorderOk (updateInputs libs plugin u pids view routing link)
            (viewPids net agg).internal e₁.1 e₂.1)) →
      CostsAvailable prefixes net agg routing link intra inter) ∧
    (Twinless agg → CostsAvailable prefixes net agg routing link intra inter →
      ∀ e₁ e₂, CostPair prefixes agg e₁ e₂ →
        FlagsOk net (updateInputs libs plugin u pids view routing link) e₁ e₂) := by
  have hupdated := updated_of_computeResult hprep hrun
  constructor
  · intro hok e₁ e₂ hpair
    obtain ⟨hflags, hborder⟩ := hok e₁ e₂ hpair
    refine ⟨hupdated.cost_ne_nan hpair hflags hborder, ?_, ?_⟩
    · rw [hflags.src, hflags.dst]
    · rw [hflags.src, hflags.dst]
  · intro htwin hcosts e₁ e₂ hpair
    exact hupdated.flagsOk htwin hpair (hcosts e₁ e₂ hpair).1

/-- The internal node and the external one with the flag that its PID is given, and a prefix for each. -/
def flagAgg (external : Bool) : PIDAggregation :=
  (((nodeAgg ["a"]).add "x" ⟨"isp", 1, external⟩ ((∅ : StdSet String).insert "x")).2)

@[inherit_doc flagAgg] def flagPrefixes (external : Bool) : PIDMap :=
  ((PatriciaTrie.empty.add (fun _ _ => false) (.ofRaw .inet [false] 1) ⟨"isp", 0, false⟩).2.add
    (fun _ _ => false) (.ofRaw .inet [true] 1) ⟨"isp", 1, external⟩).2

@[inherit_doc flagAgg] def flagResult (external : Bool) :
    Except UpdateFault (Option (PIDMatrix × PIDMatrix)) :=
  computeResult borderLibs (fun _ _ => .empty) borderNet (.new "") (flagAgg external) (.new 1) .empty

/-- What the update finds when the PID of the external node is configured as external. -/
def externalFlagChecks : Bool :=
  match prepare borderLibs borderNet (.new "") (flagAgg true), flagResult true with
  | .ok (some (u, _, pids)), .ok (some _) =>
    let inp := updateInputs borderLibs (fun _ _ => .empty) u pids (.new "") (.new 1) .empty
    (viewRecords (flagAgg true)).map Prod.fst == [⟨"isp", 0, false⟩, ⟨"isp", 1, true⟩] &&
      (viewRecords (flagAgg true)).all (fun e => recordPid borderNet.doCopyProperties e == e.1) &&
      decide (toLex (0, 1) ∈ u.net.graph.edges) &&
      (u.net.getPid 0 == some ⟨"isp", 0, false⟩) && (u.net.getPid 1 == some ⟨"isp", 1, true⟩) &&
      (borderHop inp ⟨"isp", 1, true⟩ ⟨"isp", 0, false⟩ == none)
  | _, _ => false

/-- What the update finds when the PID of the external node is configured as internal. -/
def internalFlagChecks : Bool :=
  match flagResult false, viewRecords (flagAgg false) with
  | .ok (some (intra, inter)), [e₁, e₂] =>
    (e₁.1 == ⟨"isp", 0, false⟩) && (e₂.1 == ⟨"isp", 1, false⟩) &&
      (flagPrefixes false).hasPrefixes ⟨"isp", 0, false⟩ &&
      (flagPrefixes false).hasPrefixes ⟨"isp", 1, false⟩ &&
      ((CostView.mk (flagPrefixes false) intra inter).getPDistance ⟨"isp", 0, false⟩
        ⟨"isp", 1, false⟩ == .nan)
  | _, _ => false

/-- The PID of the external node is configured as external: every pair has a cost. -/
theorem published_costs_flag :
    ∃ intra inter, flagResult true = .ok (some (intra, inter)) ∧
      CostsAvailable (flagPrefixes true) borderNet (flagAgg true) (.new 1) .empty intra inter := by
  have hcheck : externalFlagChecks = true := by decide +kernel
  unfold externalFlagChecks at hcheck
  split at hcheck
  · next u found pids res hprep hrun =>
    obtain ⟨intra, inter⟩ := res
    simp only [Bool.and_eq_true, beq_iff_eq, decide_eq_true_eq, List.all_eq_true] at hcheck
    obtain ⟨⟨⟨⟨⟨hpids, hflags⟩, hedge⟩, hp₀⟩, hp₁⟩, hhop⟩ := hcheck
    have hpid : ∀ e ∈ viewRecords (flagAgg true),
        e.1 = ⟨"isp", 0, false⟩ ∨ e.1 = ⟨"isp", 1, true⟩ := fun e he => by
      simpa [hpids] using List.mem_map_of_mem (f := Prod.fst) he
    have hlink : Link u.net ⟨"isp", 0, false⟩ ⟨"isp", 1, true⟩ := ⟨0, 1, hedge, hp₀, hp₁⟩
    refine ⟨intra, inter, hrun, (published_costs hprep hrun).1 fun e₁ e₂ hpair =>
      ⟨⟨hflags e₁ hpair.src.1, hflags e₂ hpair.dst.1, fun h₁ h₂ => ?_⟩, fun hne => ?_⟩⟩
    · rcases hpid e₁ hpair.src.1 with he₁ | he₁ <;> rw [he₁] at h₁ ⊢ <;> try cases h₁
      rcases hpid e₂ hpair.dst.1 with he₂ | he₂ <;> rw [he₂] at h₂ ⊢ <;> try cases h₂
      change Double.fin 0 ≠ .nan
      simp
    · rcases hpid e₁ hpair.src.1 with he₁ | he₁ <;> rcases hpid e₂ hpair.dst.1 with he₂ | he₂ <;>
        rw [he₁, he₂] at hne ⊢
      · exact absurd rfl hne
      · refine ⟨fun _ => ?_, fun hno => absurd hlink hno, fun hno => absurd hlink hno⟩
        change Double.fin 60 ≠ .nan
        simp
      · refine ⟨fun _ => ?_, fun _ _ => ?_, fun _ hop h => ?_⟩
        · change Double.fin 60 ≠ .nan
          simp
        · change Double.fin 60 ≠ .nan
          simp
        · rw [hhop] at h
          cases h
      · exact absurd rfl hne
  · cases hcheck

/-- The PID of the external node is configured as internal: the update succeeds and both PIDs have
prefixes, and there is no cost between them. -/
theorem costs_undefined_under_internal_flag :
    ¬ ∀ (libs : ViewLibs) (plugin : NetState → PinnedPIDSet → PIDMatrix) (net : NetState)
      (view : View) (agg : PIDAggregation) (routing : PIDRouting) (link intra inter : PIDMatrix)
      (prefixes : PIDMap),
      computeResult libs plugin net view agg routing link = .ok (some (intra, inter)) →
      CostsAvailable prefixes net agg routing link intra inter := by
  intro h
  have hcheck : internalFlagChecks = true := by decide +kernel
  unfold internalFlagChecks at hcheck
  split at hcheck
  · next intra inter e₁ e₂ hrun hrecords =>
    simp only [Bool.and_eq_true, beq_iff_eq] at hcheck
    obtain ⟨⟨⟨⟨he₁, he₂⟩, hpre₁⟩, hpre₂⟩, hnan⟩ := hcheck
    have hmem : e₁ ∈ viewRecords (flagAgg false) ∧ e₂ ∈ viewRecords (flagAgg false) := by
      simp [hrecords]
    have hpair : CostPair (flagPrefixes false) (flagAgg false) e₁ e₂ :=
      ⟨⟨hmem.1, by rw [he₁, hpre₁]⟩, ⟨hmem.2, by rw [he₂, hpre₂]⟩, by simp [he₁]⟩
    have hcost := (h _ _ _ _ _ _ _ _ _ (flagPrefixes false) hrun e₁ e₂ hpair).1
    rw [he₁, he₂] at hcost
    exact hcost hnan
  · cases hcheck

end Alto.ViewUpdate
