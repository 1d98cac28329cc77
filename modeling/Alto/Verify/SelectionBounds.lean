import Alto.Verify.SelectionReturns

/-!
# The number of peers that are selected

Each stage of a selection derives its quota from the number of peers that the earlier ones have appended.
The quotas add up to the number that is asked for as long as no stage of `fillPeers` is entered when that
number has been reached: it appends a peer before it looks at the limit.
-/

namespace Alto.Selection

open Common Lib App Guidance

variable {randMax : Nat} {Peer ISP Mgr : Type} [LinearOrder Peer] [LinearOrder ISP]

/-! ## Bounds -/

/-- A quota is the number that it stands for, without the fraction. -/
def ExactQuota (q : ℚ × Nat) : Prop := 0 ≤ q.1 ∧ (q.2 : Int) = ⌊q.1⌋

instance (q : ℚ × Nat) : Decidable (ExactQuota q) := inferInstanceAs (Decidable (_ ∧ _))

/-- No more peers have been appended than are asked for, and no quota has wrapped around. -/
structure Bounded (numPeers : Nat) (s t : Selecting Peer) : Prop where
  appended : ∃ out, t.outPeers = s.outPeers ++ out ∧ out.length ≤ numPeers
  quotas : ∃ new, t.quotas = s.quotas ++ new ∧ ∀ q ∈ new, ExactQuota q

theorem Bounded.length_le {numPeers : Nat} {s t : Selecting Peer} (h : Bounded numPeers s t) :
    t.outPeers.length ≤ s.outPeers.length + numPeers := by
  obtain ⟨out, hout, hle⟩ := h.appended
  rw [hout, List.length_append]
  omega

/-- Wherever a selection ends it is within its bounds. -/
def StaysBounded (numPeers : Nat) (selection : Selector randMax Peer Int) (s : Selecting Peer) :
    Prop :=
  ∀ rs, (selection s rs).Holds (fun _ t => Bounded numPeers s t) (Bounded numPeers s)
    (Bounded numPeers s)

/-- A selection that appends nothing. -/
theorem staysBounded_of_eq {selection : Selector randMax Peer Int} {numPeers : Nat}
    {s t : Selecting Peer} (value : Int) (h : ∀ rs, selection s rs = .returned value t rs)
    (hout : t.outPeers = s.outPeers) (hquotas : t.quotas = s.quotas) :
    StaysBounded numPeers selection s := by
  intro rs
  rw [h]
  exact ⟨⟨[], by rw [hout, List.append_nil], Nat.zero_le _⟩,
    ⟨[], by rw [hquotas, List.append_nil], nofun⟩⟩

namespace Selector.Plan

variable {plan : Plan Peer} {s t : Selecting Peer} {numPeers : Nat}

/-- The stages add up to no more than is asked for, and the quotas are exact. -/
structure Bounds (plan : Plan Peer) (numPeers : Nat) : Prop where
  total : plan.numHome + plan.numIntra + plan.numExt + plan.numRandom ≤ numPeers
  quotas : ∀ q ∈ plan.homeQuota ++ plan.intraQuota ++ plan.extQuota ++ plan.randomQuota, ExactQuota q

theorem InHome.bounded (hb : plan.Bounds numPeers) (h : plan.InHome s t) :
    Bounded numPeers s t := by
  obtain ⟨out, hd⟩ := h
  have hlen : out.length ≤ plan.numHome := hd.length_le
  have htotal := hb.total
  obtain ⟨k, hdrew⟩ := hd.drew
  refine ⟨⟨out, hdrew.outPeers, by omega⟩, ⟨plan.homeQuota, hdrew.quotas, fun q hq => ?_⟩⟩
  exact hb.quotas q (List.mem_append_left _ (List.mem_append_left _ (List.mem_append_left _ hq)))

theorem Appended.bounded {js : List Nat} {intra ext : List Peer} {quotas : List (ℚ × Nat)}
    (h : plan.Appended s t js intra ext quotas)
    (hlen : plan.numHome + intra.length + ext.length ≤ numPeers)
    (hquotas : ∀ q ∈ quotas, ExactQuota q) : Bounded numPeers s t := by
  obtain ⟨⟨first, hc⟩, hnew, -, -⟩ := h
  obtain ⟨k, hdrew⟩ := hc.drew
  refine ⟨⟨first ++ (intra ++ ext), hdrew.outPeers, ?_⟩, ⟨quotas, hnew, hquotas⟩⟩
  have hsize : first.length = plan.numHome := hc.size
  rw [List.length_append, List.length_append]
  omega

theorem InIntra.bounded (hb : plan.Bounds numPeers) (h : plan.InIntra s t) :
    Bounded numPeers s t := by
  obtain ⟨intra, happended, hlen⟩ := h
  have htotal := hb.total
  refine happended.bounded ?_ fun q hq => ?_
  · rw [List.length_nil]
    omega
  · exact hb.quotas q (List.mem_append_left _ (List.mem_append_left _ hq))

theorem InExt.bounded (hb : plan.Bounds numPeers) (h : plan.InExt s t) : Bounded numPeers s t := by
  obtain ⟨intra, ext, happended, hintra, -, hlen⟩ := h
  have htotal := hb.total
  refine happended.bounded ?_ fun q hq => ?_
  · omega
  · exact hb.quotas q (List.mem_append_left _ hq)

/-- What has been appended and recorded in the last stage. -/
theorem InRandom.contents (h : plan.InRandom s t) : ∃ out random, t.outPeers = s.outPeers ++ out ∧
    out.length = plan.numHome + plan.numIntra + plan.numExt + random ∧ random ≤ plan.numRandom ∧
    t.quotas = s.quotas ++
      (plan.homeQuota ++ plan.intraQuota ++ plan.extQuota ++ plan.randomQuota) := by
  obtain ⟨u, out, ⟨intra, ext, ⟨⟨first, hc⟩, hnew, -, -⟩, hintra, -, hext, -⟩, hrandom, hlen⟩ := h
  obtain ⟨k, hdrew⟩ := hc.drew
  have hsize : first.length = plan.numHome := hc.size
  have hout : u.outPeers = s.outPeers ++ (first ++ (intra ++ ext)) := hdrew.outPeers
  have hquotas : t.quotas = u.quotas ++ plan.randomQuota := hrandom.quotas
  have hafter : t.outPeers = u.outPeers ++ out := hrandom.outPeers
  refine ⟨first ++ (intra ++ ext) ++ out, out.length, ?_, ?_, hlen, ?_⟩
  · rw [hafter, hout, List.append_assoc]
  · simp only [List.length_append]
    omega
  · rw [hquotas, hnew, List.append_assoc s.quotas]

/-- A run that follows its plan stays within its bounds. -/
theorem Follows.bounded {run : Drawn (Fin (randMax + 1)) (Selecting Peer) Int}
    (h : plan.Follows s run) (hb : plan.Bounds numPeers) :
    run.Holds (fun _ t => Bounded numPeers s t) (Bounded numPeers s) (Bounded numPeers s) := by
  have htotal := hb.total
  have hrandom : ∀ t, plan.InRandom s t → Bounded numPeers s t := by
    intro t hu
    obtain ⟨out, random, hout, hlen, hle, hquotas⟩ := hu.contents
    exact ⟨⟨out, hout, by omega⟩, ⟨_, hquotas, hb.quotas⟩⟩
  refine h.imp ?_ ?_ ?_
  · rintro _ t ⟨-, u, hu, rfl⟩
    have hbounded := hrandom u hu
    exact ⟨hbounded.appended, hbounded.quotas⟩
  · rintro t (⟨hintra, -⟩ | ⟨hext, -⟩)
    · exact hintra.bounded hb
    · exact hext.bounded hb
  · rintro t (hhome | hintra | hext | hlast)
    · exact hhome.bounded hb
    · exact hintra.bounded hb
    · exact hext.bounded hb
    · exact hrandom t hlast

/-- A selection that can return within its bounds has a plan that is within them. -/
theorem within_of_may {selection : Selector randMax Peer Int}
    (hmay : Draws.May (fun t => t = s) selection (fun _ _ => True))
    (hfollows : ∀ rs, plan.Follows s (selection s rs))
    (hbounded : StaysBounded numPeers selection s) :
    plan.numHome + plan.numIntra + plan.numExt ≤ numPeers ∧
      ∀ q ∈ plan.homeQuota ++ plan.intraQuota ++ plan.extQuota ++ plan.randomQuota, ExactQuota q := by
  obtain ⟨rs, value, t, -, hrun⟩ := hmay s rfl
  have hend := hfollows (rs ++ [])
  have hwithin := hbounded (rs ++ [])
  rw [hrun] at hend hwithin
  obtain ⟨-, u, hu, rfl⟩ := hend
  obtain ⟨out, random, hout, hlen, -, hquotas⟩ := hu.contents
  obtain ⟨⟨out', hout', hle⟩, ⟨new, hnew, hexact⟩⟩ := hwithin
  change u.outPeers = _ at hout'
  change u.quotas = _ at hnew
  obtain rfl := List.append_cancel_left (hout.symm.trans hout')
  obtain rfl := List.append_cancel_left (hquotas.symm.trans hnew)
  exact ⟨by omega, hexact⟩

end Selector.Plan

/-! ## The quotas -/

section Quotas

variable {numPeers prefilled size : Nat} {x : ℚ}

/-- The number of peers fits into an `int`, and the limit into an `unsigned int`. -/
structure Countable (numPeers prefilled : Nat) : Prop where
  prefilled_lt : prefilled < 2 ^ 31
  limit_lt : numPeers + prefilled < 2 ^ 32

theorem exactQuota_natCast (n : Nat) : ExactQuota ((n : ℚ), n) :=
  ⟨Nat.cast_nonneg _, (Int.floor_natCast n).symm⟩

theorem exactQuota_intCast {n : Int} {value : Nat} :
    ExactQuota ((n : ℚ), value) ↔ 0 ≤ n ∧ (value : Int) = n := by
  unfold ExactQuota
  rw [Int.floor_intCast, Int.cast_nonneg_iff]

theorem exact_truncatedQuota (hx : 0 ≤ x) (hlt : x < 2 ^ 32) :
    ∀ q ∈ truncatedQuota x, ExactQuota q := by
  intro q hq
  obtain rfl := List.mem_singleton.1 hq
  exact ⟨hx, truncate_eq_floor hx hlt⟩

theorem Countable.toUnsigned_eq (h : Countable numPeers prefilled) :
    toUnsigned (toInt prefilled) = prefilled := by
  have hlt := h.prefilled_lt
  rw [toInt_of_lt hlt, toUnsigned_natCast (by omega)]

theorem Countable.exact_limitQuota (h : Countable numPeers prefilled) :
    ∀ q ∈ limitQuota numPeers prefilled, ExactQuota q := by
  have hlimit := limit_eq h.prefilled_lt h.limit_lt
  intro q hq
  unfold limitQuota at hq
  rw [h.toUnsigned_eq, toInt_of_lt h.prefilled_lt, hlimit] at hq
  rcases List.mem_cons.1 hq with rfl | hq
  · exact exactQuota_natCast prefilled
  · obtain rfl := List.mem_singleton.1 hq
    have hexact := exactQuota_natCast (numPeers + prefilled)
    rw [Nat.cast_add] at hexact
    exact hexact

theorem Countable.missing_eq (h : Countable numPeers prefilled) (hsize : size ≤ numPeers + prefilled) :
    missing numPeers prefilled size = numPeers + prefilled - size := by
  have hlt := h.limit_lt
  rw [missing, limit_eq h.prefilled_lt hlt]
  unfold toUnsigned
  omega

theorem Countable.exact_missingQuota (h : Countable numPeers prefilled)
    (hsize : size ≤ numPeers + prefilled) :
    ∀ q ∈ missingQuota numPeers prefilled size, ExactQuota q := by
  intro q hq
  rcases List.mem_append.1 hq with hq | hq
  · exact h.exact_limitQuota q hq
  · obtain rfl := List.mem_singleton.1 hq
    rw [h.missing_eq hsize, limit_eq h.prefilled_lt h.limit_lt, ← Nat.cast_sub hsize]
    exact exactQuota_natCast _

/-- The last quota shows that the numbers fit. -/
theorem countable_of_exact (hn : numPeers < 2 ^ 32) (hsize : prefilled ≤ size)
    (h : ∀ q ∈ missingQuota numPeers prefilled size, ExactQuota q) :
    Countable numPeers prefilled := by
  have hint := exactQuota_intCast.1 (h _ (List.mem_append_left _ List.mem_cons_self :
    (((toInt prefilled : Int) : ℚ), toUnsigned (toInt prefilled)) ∈ _))
  have hlimit := (h ((numPeers : ℚ) + toUnsigned (toInt prefilled), limit numPeers prefilled)
    (List.mem_append_left _ (List.mem_cons_of_mem _ List.mem_cons_self))).2
  have hmissing := (h ((limit numPeers prefilled : ℚ) - size, missing numPeers prefilled size)
    (List.mem_append_right _ List.mem_cons_self)).1
  rw [← Nat.cast_add, Int.floor_natCast] at hlimit
  have hle : size ≤ limit numPeers prefilled := by
    have : (size : ℚ) ≤ limit numPeers prefilled := by linarith
    exact_mod_cast this
  have hlt : limit numPeers prefilled < 2 ^ 32 := by
    unfold limit toUnsigned
    omega
  have hhigh : toInt prefilled < 2 ^ 31 := by
    unfold toInt
    rw [Int.bmod_def]
    split <;> omega
  have hmod : (prefilled - toInt prefilled) % 2 ^ 32 = 0 := by
    unfold toInt
    rw [Int.bmod_def]
    split <;> omega
  generalize toInt prefilled = int at *
  generalize toUnsigned int = unsigned at *
  constructor <;> omega

end Quotas

namespace Selector

theorem fillNumber_le (view : PerISPPeerDistribution Peer) (is : List Nat) (size maxPeers : Nat) :
    fillNumber view is size maxPeers ≤ max 1 (maxPeers - size) := by
  unfold fillNumber fillSize fillCount
  split
  · exact Nat.zero_le _
  · omega

theorem fillNumber_nil (view : PerISPPeerDistribution Peer) (size maxPeers : Nat) :
    fillNumber view [] size maxPeers = 0 := by
  unfold fillNumber fillSize
  exact if_pos rfl

/-- `fillPeers` appends a peer in any case. -/
theorem fillNumber_pos (view : PerISPPeerDistribution Peer) {is : List Nat} (hne : is ≠ [])
    (size maxPeers : Nat) : 0 < fillNumber view is size maxPeers := by
  unfold fillNumber fillSize fillCount
  rw [if_neg hne]
  omega

namespace Plan

/-- When `fillPeers` is called for some PIDs there is a peer missing. -/
structure HasRoom (plan : Plan Peer) (numPeers : Nat) : Prop where
  intra : plan.intra = [] ∨ plan.numHome < numPeers
  ext : plan.ext = [] ∨ plan.numHome + plan.numIntra < numPeers

theorem numHome_le (plan : Plan Peer) : plan.numHome ≤ plan.number := Nat.min_le_left _ _

end Plan

end Selector

namespace SelectionContext

open Selector

variable {ctx : SelectionContext Peer ISP Mgr} {view : PerISPPeerDistribution Peer} {peer : Peer}
  {homeIsp : ISP} {home numPeers : Nat} {s : Selecting Peer} {plan : Plan Peer}

section Weights

variable {pidPct ispPct : ℚ} {weights : List ℚ}

/-- The numbers of the plan of `selectPeers` with weights. -/
theorem weightsPlan_numbers
    (hplan : plan = ctx.weightsPlan view peer homeIsp home numPeers s pidPct ispPct weights)
    (hp : plan.Proper) :
    plan.numIntra = fillNumber plan.view plan.intra (s.outPeers.length + plan.numHome)
        (truncate (intraLimit ctx.arith numPeers ispPct s.outPeers.length)) ∧
      plan.numExt = fillNumber plan.view plan.ext
        (s.outPeers.length + plan.numHome + plan.numIntra) (limit numPeers s.outPeers.length) ∧
      plan.numRandom = missing numPeers s.outPeers.length
        (s.outPeers.length + plan.numHome + plan.numIntra + plan.numExt) ∧
      plan.randomQuota = missingQuota numPeers s.outPeers.length
        (s.outPeers.length + plan.numHome + plan.numIntra + plan.numExt) := by
  rw [plan.numHome_eq hp.home_lt]
  subst hplan
  exact ⟨rfl, rfl, rfl, rfl⟩

/-- The plan of `selectPeers` with weights is within the bounds if there is room. -/
theorem weightsPlan_bounds
    (hplan : plan = ctx.weightsPlan view peer homeIsp home numPeers s pidPct ispPct weights)
    (hp : plan.Proper) (hpct : Percentages pidPct ispPct)
    (hcount : Countable numPeers s.outPeers.length) (hroom : plan.HasRoom numPeers) :
    plan.Bounds numPeers := by
  have hlimit := hcount.limit_lt
  obtain ⟨hnumIntra, hnumExt, hnumRandom, hrandomQuota⟩ := weightsPlan_numbers hplan hp
  obtain ⟨hmaxNonneg, hmaxLe, hmax⟩ := hpct.maxIntra ctx.arith hcount.prefilled_lt hlimit
  have hnumber : plan.number ≤ numPeers := by
    subst hplan
    exact hpct.number_le _ (by omega)
  have hhome := plan.numHome_le.trans hnumber
  -- what the two stages of `fillPeers` append
  have hintra : plan.numHome + plan.numIntra ≤ numPeers := by
    rcases hroom.intra with hnil | hlt
    · rw [hnil, fillNumber_nil] at hnumIntra
      omega
    · have hle := hnumIntra.trans_le (fillNumber_le _ _ _ _)
      omega
  have hext : plan.numHome + plan.numIntra + plan.numExt ≤ numPeers := by
    rw [limit_eq hcount.prefilled_lt hlimit] at hnumExt
    rcases hroom.ext with hnil | hlt
    · rw [hnil, fillNumber_nil] at hnumExt
      omega
    · have hle := hnumExt.trans_le (fillNumber_le _ _ _ _)
      omega
  rw [hcount.missing_eq (by omega)] at hnumRandom
  refine ⟨by omega, ?_⟩
  have hhomeQuota : ∀ q ∈ plan.homeQuota, ExactQuota q := by
    have hrange := hpct.number_range ctx.arith (show numPeers < 2 ^ 32 by omega)
    have hlt : (numPeers : ℚ) + 1 ≤ 2 ^ 32 := by exact_mod_cast (show numPeers + 1 ≤ 2 ^ 32 by omega)
    subst hplan
    exact exact_truncatedQuota hrange.1 (by linarith [hrange.2])
  have hintraQuota : ∀ q ∈ plan.intraQuota, ExactQuota q := by
    have hlt : (numPeers : ℚ) + s.outPeers.length + 1 ≤ 2 ^ 32 := by exact_mod_cast hlimit
    subst hplan
    exact exact_truncatedQuota hmaxNonneg (by linarith)
  have hextQuota : ∀ q ∈ plan.extQuota, ExactQuota q := by
    subst hplan
    exact hcount.exact_limitQuota
  intro q hq
  rw [hrandomQuota] at hq
  simp only [List.mem_append] at hq
  rcases hq with ((hq | hq) | hq) | hq
  · exact hhomeQuota q hq
  · exact hintraQuota q hq
  · exact hextQuota q hq
  · exact hcount.exact_missingQuota (by omega) q hq

/-- Within the bounds there is room. -/
theorem weightsPlan_room
    (hplan : plan = ctx.weightsPlan view peer homeIsp home numPeers s pidPct ispPct weights)
    (hp : plan.Proper) (hn : numPeers < 2 ^ 32)
    (htotal : plan.numHome + plan.numIntra + plan.numExt ≤ numPeers)
    (hquotas : ∀ q ∈ plan.homeQuota ++ plan.intraQuota ++ plan.extQuota ++ plan.randomQuota,
      ExactQuota q) :
    Countable numPeers s.outPeers.length ∧ plan.HasRoom numPeers := by
  obtain ⟨hnumIntra, hnumExt, -, hrandomQuota⟩ := weightsPlan_numbers hplan hp
  rw [hrandomQuota] at hquotas
  refine ⟨countable_of_exact hn ?_ fun q hq => hquotas q (List.mem_append_right _ hq), ⟨?_, ?_⟩⟩
  · omega
  · refine or_iff_not_imp_left.2 fun hne => ?_
    have hpos := (fillNumber_pos plan.view hne _ _).trans_eq hnumIntra.symm
    omega
  · refine or_iff_not_imp_left.2 fun hne => ?_
    have hpos := (fillNumber_pos plan.view hne _ _).trans_eq hnumExt.symm
    omega

end Weights

section LocationOnly

/-- The numbers of the plan of `selectPeersLocationOnly`. -/
theorem localPlan_numbers (hplan : plan = ctx.localPlan view peer homeIsp home numPeers s)
    (hp : plan.Proper) :
    plan.intraQuota = truncatedQuota (intraShare ctx.arith numPeers (ctx.intraispPct homeIsp)
        s.outPeers.length (s.outPeers.length + plan.numHome)) ∧
      plan.numIntra ≤ truncate (intraShare ctx.arith numPeers (ctx.intraispPct homeIsp)
        s.outPeers.length (s.outPeers.length + plan.numHome)) ∧
      plan.extQuota = missingQuota numPeers s.outPeers.length
        (s.outPeers.length + plan.numHome + plan.numIntra) ∧
      plan.numExt ≤ missing numPeers s.outPeers.length
        (s.outPeers.length + plan.numHome + plan.numIntra) ∧
      plan.numRandom = missing numPeers s.outPeers.length
        (s.outPeers.length + plan.numHome + plan.numIntra + plan.numExt) ∧
      plan.randomQuota = missingQuota numPeers s.outPeers.length
        (s.outPeers.length + plan.numHome + plan.numIntra + plan.numExt) := by
  rw [plan.numHome_eq hp.home_lt]
  subst hplan
  exact ⟨rfl, Nat.min_le_left _ _, rfl, Nat.min_le_left _ _, rfl, rfl⟩

/-- The plan of `selectPeersLocationOnly` is within the bounds if the numbers fit and nothing is
rounded. -/
theorem localPlan_bounds (harith : ctx.arith = .exact)
    (hplan : plan = ctx.localPlan view peer homeIsp home numPeers s)
    (hp : plan.Proper) (hpct : Percentages (ctx.intrapidPct homeIsp) (ctx.intraispPct homeIsp))
    (hcount : Countable numPeers s.outPeers.length) : plan.Bounds numPeers := by
  have hlimit := hcount.limit_lt
  obtain ⟨hintraQuota, hnumIntra, hextQuota, hnumExt, hnumRandom, hrandomQuota⟩ :=
    localPlan_numbers hplan hp
  obtain ⟨hshareHome, hleHome⟩ := hpct.number_range ctx.arith (show numPeers < 2 ^ 32 by omega)
  have hpeers : (numPeers : ℚ) + 1 ≤ 2 ^ 32 := by exact_mod_cast (show numPeers + 1 ≤ 2 ^ 32 by omega)
  have hltHome : homeShare ctx.arith numPeers (ctx.intrapidPct homeIsp) < 2 ^ 32 := by linarith
  -- the share of the ISP is not smaller than what the home PID has taken
  have hhome : (plan.numHome : ℚ) ≤ numPeers * ctx.intrapidPct homeIsp + 1 / 2 := by
    have hnumber : plan.number =
        truncate (homeShare ctx.arith numPeers (ctx.intrapidPct homeIsp)) := by
      rw [hplan]
      rfl
    have hle : (plan.numHome : ℚ) ≤ plan.number := by exact_mod_cast plan.numHome_le
    have hfinal : (plan.numHome : ℚ) ≤ homeShare ctx.arith numPeers (ctx.intrapidPct homeIsp) :=
      hle.trans (hnumber ▸ cast_truncate_le hshareHome hltHome)
    rwa [harith] at hfinal
  have hpos : (0 : ℚ) ≤ numPeers := Nat.cast_nonneg _
  have hle := mul_le_mul_of_nonneg_left hpct.le hpos
  have hone := mul_le_mul_of_nonneg_left hpct.le_one hpos
  have hlt : (numPeers : ℚ) + s.outPeers.length + 1 ≤ 2 ^ 32 := by exact_mod_cast hlimit
  have hlen : (0 : ℚ) ≤ s.outPeers.length := Nat.cast_nonneg _
  have hnumHome : (0 : ℚ) ≤ plan.numHome := Nat.cast_nonneg _
  have hshare : intraShare ctx.arith numPeers (ctx.intraispPct homeIsp) s.outPeers.length
      (s.outPeers.length + plan.numHome) = (numPeers : ℚ) * ctx.intraispPct homeIsp +
        s.outPeers.length - (s.outPeers.length + plan.numHome) + 1 / 2 := by
    rw [harith, intraShare, toInt_of_lt hcount.prefilled_lt]
    simp
  generalize intraShare ctx.arith numPeers (ctx.intraispPct homeIsp) s.outPeers.length
    (s.outPeers.length + plan.numHome) = share at hintraQuota hnumIntra hshare
  have hshareNonneg : 0 ≤ share := by linarith
  have hshareLt : share < 2 ^ 32 := by linarith
  have hintra : plan.numHome + plan.numIntra ≤ numPeers := by
    have hnum : (plan.numIntra : ℚ) ≤ truncate share := by exact_mod_cast hnumIntra
    have hle := cast_truncate_le hshareNonneg hshareLt
    have hsum : ((plan.numHome + plan.numIntra : Nat) : ℚ) < (numPeers + 1 : Nat) := by
      push_cast
      linarith
    exact Nat.le_of_lt_succ (by exact_mod_cast hsum)
  rw [hcount.missing_eq (by omega)] at hnumExt
  rw [hcount.missing_eq (by omega)] at hnumRandom
  refine ⟨by omega, ?_⟩
  intro q hq
  rw [hintraQuota, hextQuota, hrandomQuota] at hq
  simp only [List.mem_append] at hq
  rcases hq with ((hq | hq) | hq) | hq
  · subst hplan
    exact exact_truncatedQuota hshareHome hltHome q hq
  · exact exact_truncatedQuota hshareNonneg hshareLt q hq
  · exact hcount.exact_missingQuota (by omega) q hq
  · exact hcount.exact_missingQuota (by omega) q hq

/-- Within the bounds the numbers fit. -/
theorem localPlan_countable (hplan : plan = ctx.localPlan view peer homeIsp home numPeers s)
    (hp : plan.Proper) (hn : numPeers < 2 ^ 32)
    (hquotas : ∀ q ∈ plan.homeQuota ++ plan.intraQuota ++ plan.extQuota ++ plan.randomQuota,
      ExactQuota q) : Countable numPeers s.outPeers.length := by
  obtain ⟨-, -, -, -, -, hrandomQuota⟩ := localPlan_numbers hplan hp
  rw [hrandomQuota] at hquotas
  exact countable_of_exact hn (by omega) fun q hq => hquotas q (List.mem_append_right _ hq)

end LocationOnly

/-! ## The two functions -/

variable {homePid : Int}

/-- Nothing is selected, or the numbers fit. -/
def LocalRoom (ctx : SelectionContext Peer ISP Mgr) (homeIsp : ISP) (homePid : Int) (numPeers : Nat)
    (s : Selecting Peer) : Prop :=
  ctx.manager.ispPeers.views[homeIsp]? = none ∨
    (ctx.objects.pidMap homeIsp).numIntraISPPIDs ≤ toUnsigned homePid ∨
    Countable numPeers s.outPeers.length

/-- What `selectPeers` needs to stay within its bounds. -/
def RoomFor (ctx : SelectionContext Peer ISP Mgr) (peer : Peer) (numPeers : Nat)
    (s : Selecting Peer) : Prop :=
  match ctx.route peer with
  | .refused => True
  | .locationOnly homeIsp homePid => ctx.LocalRoom homeIsp homePid numPeers s
  | .byWeights homeIsp homePid pidPct ispPct weights =>
    ∀ view, ctx.manager.ispPeers.views[homeIsp]? = some view →
      Countable numPeers s.outPeers.length ∧
      (ctx.weightsPlan view peer homeIsp homePid.toNat numPeers s pidPct ispPct weights).HasRoom
        numPeers

section LocationOnly

variable (h : ctx.Loaded) (hlow : -2 ^ 31 ≤ homePid) (hhigh : homePid < 2 ^ 31)
  (hpct : Percentages (ofDouble (ctx.manager.getConfiguredOptions homeIsp).intrapidPct)
    (ofDouble (ctx.manager.getConfiguredOptions homeIsp).intraispPct))

include h hlow hhigh hpct

theorem selectPeersLocationOnly_bounded (harith : ctx.arith = .exact)
    (hroom : ctx.LocalRoom homeIsp homePid numPeers s) :
    StaysBounded numPeers (ctx.selectPeersLocationOnly peer homeIsp homePid numPeers :
      Selector randMax Peer Int) s := by
  cases hfound : ctx.manager.ispPeers.views[homeIsp]? with
  | none =>
    refine staysBounded_of_eq errGuidanceUnavailable (fun rs => ?_) rfl rfl
    exact selectPeersLocationOnly_none ctx _ _ hfound s rs
  | some view =>
    rcases Nat.lt_or_ge (toUnsigned homePid) (ctx.objects.pidMap homeIsp).numIntraISPPIDs with
      hinternal | hexternal
    · have hcount : Countable numPeers s.outPeers.length := by
        rcases hroom with hnone | hexternal | hcount
        · rw [hfound] at hnone
          cases hnone
        · omega
        · exact hcount
      obtain ⟨home, rfl, hint, hhome⟩ := h.exists_home hlow hhigh hinternal
      have hp : (ctx.localPlan view peer homeIsp home numPeers s).Proper :=
        localPlan_proper (h.buckets _ _ hfound) (h.intra_le homeIsp) hint hhome
      exact fun rs => (selectPeersLocationOnly_follows hfound (h.buckets _ _ hfound)
        (h.intra_le homeIsp) hint hhome rs).bounded (localPlan_bounds harith rfl hp hpct.configured
          hcount)
    · refine staysBounded_of_eq (t := s.entered) errGuidanceUnavailable (fun rs => ?_) rfl rfl
      exact selectPeersLocationOnly_external ctx _ _ hfound hexternal s rs

theorem localRoom_of_bounded (hn : numPeers < 2 ^ 32) (hreg : ctx.RegularAt randMax homeIsp numPeers)
    (hbounded : StaysBounded numPeers (ctx.selectPeersLocationOnly peer homeIsp homePid numPeers :
      Selector randMax Peer Int) s) : ctx.LocalRoom homeIsp homePid numPeers s := by
  cases hfound : ctx.manager.ispPeers.views[homeIsp]? with
  | none => exact .inl hfound
  | some view =>
    refine .inr (or_iff_not_imp_left.2 fun hinternal => ?_)
    obtain ⟨home, rfl, hint, hhome⟩ := h.exists_home hlow hhigh (not_le.1 hinternal)
    have hview := h.buckets _ _ hfound
    have hp : (ctx.localPlan view peer homeIsp home numPeers s).Proper :=
      localPlan_proper hview (h.intra_le homeIsp) hint hhome
    have hmay : Draws.May (fun t => t = s) (ctx.selectPeersLocationOnly peer homeIsp home numPeers :
        Selector randMax Peer Int) (fun _ _ => True) :=
      may_selectPeersLocationOnly hview (h.intra_le homeIsp) hint hhome (hreg view hfound)
        hpct.configured hfound
    have hwithin := Plan.within_of_may hmay (fun rs => selectPeersLocationOnly_follows hfound hview
      (h.intra_le homeIsp) hint hhome rs) hbounded
    exact localPlan_countable rfl hp hn hwithin.2

end LocationOnly

section SelectPeers

variable (h : ctx.Loaded) (hpct : ctx.PercentagesFor peer)

include h hpct

theorem selectPeers_bounded (harith : ctx.arith = .exact) (hroom : ctx.RoomFor peer numPeers s) :
    StaysBounded numPeers (ctx.selectPeers peer numPeers : Selector randMax Peer Int) s := by
  rw [selectPeers_eq]
  unfold PercentagesFor at hpct
  unfold RoomFor at hroom
  cases hroute : ctx.route peer with
  | refused => exact staysBounded_of_eq errGuidanceUnavailable (fun _ => rfl) rfl rfl
  | locationOnly homeIsp homePid =>
    rw [hroute] at hpct hroom
    obtain ⟨home, rfl, hint, -⟩ := h.exists_route_home (.inl hroute)
    exact selectPeersLocationOnly_bounded h (by omega) (by omega) hpct harith hroom
  | byWeights homeIsp homePid pidPct ispPct weights =>
    rw [hroute] at hpct hroom
    obtain ⟨home, rfl, -, hhome⟩ := h.exists_route_home (.inr ⟨_, _, _, hroute⟩)
    cases hfound : ctx.manager.ispPeers.views[homeIsp]? with
    | none =>
      refine staysBounded_of_eq errGuidanceUnavailable (fun rs => ?_) rfl rfl
      exact selectByWeights_none ctx _ _ _ _ _ _ hfound s rs
    | some view =>
      have hview := h.buckets _ _ hfound
      obtain ⟨hcount, hroom⟩ := hroom view hfound
      exact fun rs => (selectByWeights_follows hfound hview hhome rs).bounded
        (weightsPlan_bounds rfl (weightsPlan_proper hview hhome) hpct hcount hroom)

theorem roomFor_of_bounded (hn : numPeers < 2 ^ 32) (hreg : ctx.RegularFor randMax peer numPeers)
    (hbounded : StaysBounded numPeers
      (ctx.selectPeers peer numPeers : Selector randMax Peer Int) s) :
    ctx.RoomFor peer numPeers s := by
  rw [selectPeers_eq] at hbounded
  unfold PercentagesFor at hpct
  unfold RegularFor at hreg
  unfold RoomFor
  cases hroute : ctx.route peer with
  | refused => trivial
  | locationOnly homeIsp homePid =>
    rw [hroute] at hpct hreg hbounded
    obtain ⟨home, rfl, hint, -⟩ := h.exists_route_home (.inl hroute)
    exact localRoom_of_bounded h (by omega) (by omega) hpct hn hreg hbounded
  | byWeights homeIsp homePid pidPct ispPct weights =>
    rw [hroute] at hpct hreg hbounded
    obtain ⟨home, rfl, -, hhome⟩ := h.exists_route_home (.inr ⟨_, _, _, hroute⟩)
    intro view hfound
    have hview := h.buckets _ _ hfound
    have hmay : Draws.May (fun t => t = s) (ctx.selectByWeights peer homeIsp home numPeers pidPct ispPct weights :
        Selector randMax Peer Int) (fun _ _ => True) :=
      may_selectByWeights hview hhome (hreg view hfound) hpct hfound
    obtain ⟨htotal, hquotas⟩ := Plan.within_of_may hmay
      (fun rs => selectByWeights_follows hfound hview hhome rs) hbounded
    exact weightsPlan_room rfl (weightsPlan_proper hview hhome) hn htotal hquotas

end SelectPeers

/-- In exact arithmetic a selection stays within its bounds exactly where the numbers fit and `fillPeers`
has room. -/
theorem selection_bounded_iff (h : ctx.Loaded) (harith : ctx.arith = .exact) (numPeers : Nat)
    (hn : numPeers < 2 ^ 32) (s : Selecting Peer) (randMax : Nat) :
    (∀ peer homeIsp (homePid : Int), -2 ^ 31 ≤ homePid → homePid < 2 ^ 31 →
      Percentages (ofDouble (ctx.manager.getConfiguredOptions homeIsp).intrapidPct)
        (ofDouble (ctx.manager.getConfiguredOptions homeIsp).intraispPct) →
      (ctx.LocalRoom homeIsp homePid numPeers s →
        StaysBounded numPeers (ctx.selectPeersLocationOnly peer homeIsp homePid numPeers :
          Selector randMax Peer Int) s) ∧
      (ctx.RegularAt randMax homeIsp numPeers →
        StaysBounded numPeers (ctx.selectPeersLocationOnly peer homeIsp homePid numPeers :
          Selector randMax Peer Int) s →
        ctx.LocalRoom homeIsp homePid numPeers s)) ∧
    ∀ peer, ctx.PercentagesFor peer →
      (ctx.RoomFor peer numPeers s →
        StaysBounded numPeers (ctx.selectPeers peer numPeers : Selector randMax Peer Int) s) ∧
      (ctx.RegularFor randMax peer numPeers →
        StaysBounded numPeers (ctx.selectPeers peer numPeers : Selector randMax Peer Int) s →
        ctx.RoomFor peer numPeers s) :=
  ⟨fun _ _ _ hlow hhigh hpct => ⟨selectPeersLocationOnly_bounded h hlow hhigh hpct harith,
      localRoom_of_bounded h hlow hhigh hpct hn⟩,
    fun _ hpct => ⟨selectPeers_bounded h hpct harith, roomFor_of_bounded h hpct hn⟩⟩

theorem selection_bounded_internal :
    StaysBounded 2 ((smallSwarm .exact true .locationOnly (1 / 2) 1 []).selectPeersLocationOnly 0 0 0 2 :
      Selector 32767 Nat Int) { outPeers := [] } :=
  (((selection_bounded_iff (loaded_smallSwarm .exact true .locationOnly (1 / 2) 1 []) rfl 2 (by decide)
    { outPeers := [] } 32767).1 0 0 0 (by decide) (by decide)
    ⟨by decide +kernel, by decide +kernel, by decide +kernel⟩).1) (.inr (.inr ⟨by decide, by decide⟩))

/-- One peer is asked for, which the home PID has. `fillPeers` appends another one, the number of peers
that are missing wraps around, and all the others are appended, too. -/
theorem selection_not_bounded :
    ¬ StaysBounded 1 ((smallSwarm .exact false .filesharingMatching 1 1 [1 / 3, 1 / 3, 1 / 3]).selectPeers
      0 1 : Selector 32767 Nat Int) { outPeers := [] } := by
  intro h
  have hlength := (h [1, 0, 0, 0, 0, 0, 0, 0, 0]).imp (fun _ _ => Bounded.length_le)
    (fun _ => Bounded.length_le) fun _ => Bounded.length_le
  exact absurd hlength (by decide +kernel)

end SelectionContext

end Alto.Selection
