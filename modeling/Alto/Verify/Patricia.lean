import Alto.Common.Patricia

/-!
# The Patricia tree keeps its entries

Each operation of `patricia.cpp` against the list of entries of the tree:

* `patriciaSearchExact` finds the entry at the bits of a prefix, of whatever family;
* `patriciaLookup` adds one entry to a tree that has none at those bits;
* `patriciaRemove` takes out the entry of the node it is given;
* `patriciaSearchBest` returns the longest entry along the searched bits, except where the node at
  which it stops is longer than the query (`searchStack_spec`).

All of them keep the shape `Patricia.WF`.
-/

namespace Alto.Patricia

open Lib Lib.Radix

variable {T : Type}

/-! ## Bits -/

theorem prefix_iff_getD {c m : List Bool} :
    c <+: m ↔ c.length ≤ m.length ∧ ∀ i < c.length, c.getD i false = m.getD i false := by
  constructor
  · rintro ⟨s, rfl⟩
    refine ⟨by simp, fun i hi => ?_⟩
    simp [List.getD_eq_getElem?_getD, List.getElem?_append_left hi]
  · rintro ⟨hle, h⟩
    rw [List.prefix_iff_eq_take]
    refine List.ext_getElem (by simp [hle]) fun i hi hi' => ?_
    have := h i hi
    simpa [List.getD_eq_getElem?_getD, hi, Nat.lt_of_lt_of_le hi hle] using this

theorem compWithMask_iff {a b : Nat → Bool} {m : Nat} :
    compWithMask a b m = true ↔ ∀ i < m, a i = b i := by
  simp [compWithMask]

theorem differBit_le (a b : Nat → Bool) (n : Nat) : differBit a b n ≤ n := by
  unfold differBit
  cases h : (List.range n).find? fun i => a i != b i with
  | none => exact Nat.le_refl n
  | some i => exact Nat.le_of_lt (List.mem_range.1 (List.mem_of_find?_eq_some h))

theorem differBit_agree {a b : Nat → Bool} {n i : Nat} (hi : i < differBit a b n) : a i = b i := by
  have hin : i < n := Nat.lt_of_lt_of_le hi (differBit_le a b n)
  by_contra hne
  unfold differBit at hi
  cases h : (List.range n).find? fun i => a i != b i with
  | none =>
    have := List.find?_eq_none.1 h i (List.mem_range.2 hin)
    simp [hne] at this
  | some j =>
    rw [h] at hi
    simp only [Option.getD_some] at hi
    obtain ⟨-, hj⟩ := (List.find?_range_eq_some (i := j)).1 h
    simpa [hne] using hj.2 i hi

theorem differBit_differ {a b : Nat → Bool} {n : Nat} (h : differBit a b n < n) :
    a (differBit a b n) ≠ b (differBit a b n) := by
  cases hf : (List.range n).find? fun i => a i != b i with
  | none =>
    have : differBit a b n = n := by unfold differBit; rw [hf]; rfl
    omega
  | some j =>
    have e : differBit a b n = j := by unfold differBit; rw [hf]; rfl
    rw [e]
    simpa using List.find?_some hf

theorem bitTest_eq (p : IPPrefix) (behind : Nat → Bool) {i : Nat} (hi : i < p.length) :
    bitTest p behind i = p.bits.getD i false := by
  unfold bitTest
  rw [if_pos (Nat.lt_of_lt_of_le hi p.fits)]

theorem length_le_maxBits (p : IPPrefix) : p.length ≤ maxBits := by
  refine Nat.le_trans p.fits ?_
  cases p.family <;> decide

/-- Two prefixes with bits of the same length agree on them exactly if the bits are the same. -/
theorem compWithMask_exact {a p : IPPrefix} (behind : Nat → Bool) (h : a.bits.length = p.length) :
    compWithMask (touchar a) (bitTest p behind) p.length = true ↔ a.bits = p.bits := by
  rw [compWithMask_iff]
  constructor
  · intro hb
    have : a.bits <+: p.bits := prefix_iff_getD.2 ⟨Nat.le_of_eq h, fun i hi => by
      rw [h] at hi
      rw [← bitTest_eq p behind hi]
      exact hb i hi⟩
    exact this.eq_of_length h
  · intro hb i hi
    rw [bitTest_eq p behind hi, ← hb]
    rfl

/-- An entry no longer than the query matches it exactly if its bits are a prefix of the query's. -/
theorem compWithMask_prefix {a p : IPPrefix} (behind : Nat → Bool) (h : a.length ≤ p.length) :
    compWithMask (touchar a) (bitTest p behind) a.length = true ↔ a.bits <+: p.bits := by
  rw [compWithMask_iff, prefix_iff_getD]
  constructor
  · intro hb
    refine ⟨h, fun i hi => ?_⟩
    rw [← bitTest_eq p behind (Nat.lt_of_lt_of_le hi h)]
    exact hb i hi
  · intro hb i hi
    rw [bitTest_eq p behind (Nat.lt_of_lt_of_le hi h), ← hb.2 i hi]
    rfl

/-- A key below a node that is longer than the node's string hangs on the side of its next bit. -/
theorem mem_side {k : List Bool} {e : Option (Entry T)} {l r : Tree T} {q : List Bool} {a : Entry T}
    (he : ∀ a, e = some a → a.key = k) (hl : Radix.WF Entry.key (k ++ [false]) l)
    (hr : Radix.WF Entry.key (k ++ [true]) r) (ha : a ∈ walk (node k.length e l r))
    (hq : a.key <+: q) :
    (e = some a ∧ a.key = k) ∨
      (k.length < a.key.length ∧ k.length < q.length ∧ a ∈ walk (side (q.getD k.length false) l r)) := by
  have onSide : ∀ x : Bool, k ++ [x] <+: a.key →
      k.length < a.key.length ∧ k.length < q.length ∧ q.getD k.length false = x := by
    intro x hx
    have hx' := prefix_iff_getD.1 (hx.trans hq)
    have hlen := hx.length_le
    simp only [List.length_append, List.length_singleton] at hlen hx'
    refine ⟨by omega, by omega, ?_⟩
    rw [← hx'.2 k.length (by omega)]
    simp [List.getD_eq_getElem?_getD]
  rcases List.mem_append.1 ha with hea | ha
  · have : e = some a := by simpa using hea
    exact Or.inl ⟨this, he a this⟩
  · rcases List.mem_append.1 ha with ha | ha
    · obtain ⟨h1, h2, h3⟩ := onSide false (hl.prefix_key ha)
      exact Or.inr ⟨h1, h2, by rw [h3]; exact ha⟩
    · obtain ⟨h1, h2, h3⟩ := onSide true (hr.prefix_key ha)
      exact Or.inr ⟨h1, h2, by rw [h3]; exact ha⟩

/-! ## Exact search -/

/-- The node found holds an entry at the bits of the prefix. -/
theorem searchExact_some {p : IPPrefix} {behind : Nat → Bool} {c : List Bool} {t : Tree T}
    (hwf : Radix.WF Entry.key c t) {fs : List (Frame (Entry T))} {loc : Loc T}
    (h : searchExact (bitTest p behind) p.length fs t = some loc) :
    loc.tree = plug fs t ∧
      ∃ b a l r, loc.sub = node b (some a) l r ∧ a ∈ walk t ∧ a.key = p.bits := by
  induction hwf generalizing fs with
  | nil => simp [searchExact] at h
  | @node c k e l r hc he hg hl hr ihl ihr =>
    rw [searchExact_node] at h
    split at h
    · split at h
      · obtain ⟨ht, b', a, l', r', hs, ha, hk⟩ := ihr h
        exact ⟨ht, b', a, l', r', hs, by simp [ha], hk⟩
      · obtain ⟨ht, b', a, l', r', hs, ha, hk⟩ := ihl h
        exact ⟨ht, b', a, l', r', hs, by simp [ha], hk⟩
    · next hnlt =>
      split at h
      · cases h
      · next hngt =>
        have heq : k.length = p.length := by omega
        split at h
        · cases h
        · next a =>
          split at h
          · next hm =>
            cases h
            have hlen : a.pfx.bits.length = p.length := by rw [← heq, ← he a rfl]; rfl
            exact ⟨rfl, _, a, l, r, rfl, by simp, (compWithMask_exact behind hlen).1 hm⟩
          · cases h

/-- A prefix whose bits are in the tree is found. -/
theorem searchExact_none {p : IPPrefix} {behind : Nat → Bool} {c : List Bool} {t : Tree T}
    (hwf : Radix.WF Entry.key c t) {fs : List (Frame (Entry T))}
    (h : searchExact (bitTest p behind) p.length fs t = none) :
    ∀ a ∈ walk t, a.key ≠ p.bits := by
  induction hwf generalizing fs with
  | nil => simp
  | @node c k e l r hc he hg hl hr ihl ihr =>
    intro a ha hk
    rw [searchExact_node] at h
    rcases mem_side he hl hr ha (q := p.bits) (by rw [hk]) with ⟨rfl, hk'⟩ | ⟨-, hlt, hm⟩
    · -- the node's own entry: the descent stops here and the comparison succeeds
      have heq : k.length = p.length := by rw [← hk', hk]; rfl
      have hlen : a.pfx.bits.length = p.length := by rw [← heq, ← hk']; rfl
      have hcomp := (compWithMask_exact behind hlen).2 hk
      simp [heq, hcomp] at h
    · -- an entry below: the code descends on its side
      have hlt' : k.length < p.length := hlt
      rw [if_pos hlt', bitTest_eq p behind hlt'] at h
      cases hb : p.bits.getD k.length false with
      | true =>
        rw [hb] at hm h
        exact ihr h a hm hk
      | false =>
        rw [hb] at hm h
        exact ihl h a hm hk

theorem patriciaSearchExact_some {t : Tree T} (hwf : WF t) {p : IPPrefix} {behind : Nat → Bool}
    {loc : Loc T} (h : patriciaSearchExact t p behind = some loc) :
    loc.tree = t ∧ ∃ b a l r, loc.sub = node b (some a) l r ∧ a ∈ walk t ∧ a.key = p.bits :=
  searchExact_some hwf h

theorem patriciaSearchExact_none {t : Tree T} (hwf : WF t) {p : IPPrefix} {behind : Nat → Bool}
    (h : patriciaSearchExact t p behind = none) : ∀ a ∈ walk t, a.key ≠ p.bits :=
  searchExact_none hwf h

/-- An exact search finds the one entry at the bits of the prefix. -/
theorem searchExact_cases {t : Tree T} (hwf : WF t) (p : IPPrefix) (behind : Nat → Bool) :
    (∃ fs b e l r, patriciaSearchExact t p behind = some ⟨fs, node b (some e) l r⟩ ∧
      (⟨fs, node b (some e) l r⟩ : Loc T).tree = t ∧ e ∈ walk t ∧ e.key = p.bits) ∨
    (patriciaSearchExact t p behind = none ∧ ∀ e ∈ walk t, e.key ≠ p.bits) := by
  cases h : patriciaSearchExact t p behind with
  | none => exact Or.inr ⟨rfl, patriciaSearchExact_none hwf h⟩
  | some loc =>
    obtain ⟨fs, sub⟩ := loc
    obtain ⟨htree, b, e, l, r, hsub, hmem, hkey⟩ := patriciaSearchExact_some hwf h
    simp only at hsub
    subst hsub
    exact Or.inl ⟨fs, b, e, l, r, rfl, htree, hmem, hkey⟩

/-! ## Removal -/

/-- Removing the node of an entry takes out that entry and keeps the shape. -/
theorem patriciaRemove_spec {loc : Loc T} (hwf : WF loc.tree) {b : Nat} {a : Entry T} {l r : Tree T}
    (hsub : loc.sub = node b (some a) l r) :
    WF (patriciaRemove loc) ∧ (walk loc.tree).Perm (a :: walk (patriciaRemove loc)) := by
  obtain ⟨fs, sub⟩ := loc
  simp only at hsub
  subst hsub
  unfold Loc.tree at hwf ⊢
  simp only at hwf ⊢
  obtain ⟨d, hd, -, hplug⟩ := hwf.plug_inv
  cases hd with
  | @node _ k _ _ _ hc he hg hl hr =>
  cases l with
  | node bl el ll rl =>
    cases r with
    | node br er lr rr =>
      -- two children: the node becomes a glue node
      refine ⟨hplug _ node_ne_nil (.node hc (fun _ h => nomatch h) ?_ hl hr), ?_⟩
      · exact fun _ => ⟨node_ne_nil, node_ne_nil⟩
      · exact walk_plug_congr fs [a] (by simp)
    | nil =>
      refine ⟨hplug _ node_ne_nil (hl.mono (hc.trans (List.prefix_append _ _))), ?_⟩
      exact walk_plug_congr fs [a] (by simp)
  | nil =>
    cases r with
    | node br er lr rr =>
      refine ⟨hplug _ node_ne_nil (hr.mono (hc.trans (List.prefix_append _ _))), ?_⟩
      exact walk_plug_congr fs [a] (by simp)
    | nil =>
      -- a leaf: its glue parent goes with it
      cases fs with
      | nil =>
        simp only [patriciaRemove]
        exact ⟨Radix.WF.nil _, by simp⟩
      | cons f fs =>
        rw [plug_cons] at hwf
        obtain ⟨d', hd', -, hplug'⟩ := hwf.plug_inv
        obtain ⟨k', hk', -, -, hsib, hglue, hfill⟩ := hd'.fill_inv
        have hperm : (walk (f.fill (node k.length (some a) nil nil))).Perm ([a] ++ f.rest) := by
          simpa using walk_fill f (node k.length (some a) nil nil)
        simp only [patriciaRemove]
        by_cases hf : f.entry = none
        · rw [if_pos hf]
          refine ⟨hplug' _ (hglue hf).2 (hsib.mono (hk'.trans (List.prefix_append _ _))), ?_⟩
          refine walk_plug_congr fs [a] (hperm.trans ?_)
          simp [Frame.rest, hf]
        · rw [if_neg hf]
          refine ⟨hplug' _ (f.fill_ne_nil _) (hfill _ (fun h => absurd h hf) (.nil _)), ?_⟩
          refine walk_plug_congr fs [a] (hperm.trans ?_)
          have := (walk_fill f (nil : Tree T)).symm
          simp only [walk_nil, List.nil_append] at this
          exact this.append_left [a]

/-! ## Insertion -/

theorem snoc_prefix {q m : List Bool} (h : q <+: m) (hl : q.length < m.length) :
    q ++ [m.getD q.length false] <+: m := by
  obtain ⟨s, rfl⟩ := h
  cases s with
  | nil => simp at hl
  | cons x s => simp [List.getD_eq_getElem?_getD]

/-- The descent ends at a node with an entry, through frames that follow the address; if the node
is shorter than the prefix, the subtree the address points to is empty. -/
theorem descend_spec (addr : Nat → Bool) (bitlen : Nat) {c : List Bool} {t : Tree T}
    (hwf : Radix.WF Entry.key c t) (hne : t ≠ nil) (fs : List (Frame (Entry T)))
    (hfs : ∀ f ∈ fs, f.right = turn addr f.bit) :
    (descend addr bitlen fs t).tree = plug fs t ∧
      (∀ f ∈ (descend addr bitlen fs t).frames, f.right = turn addr f.bit) ∧
      ∃ b a l r, (descend addr bitlen fs t).sub = node b (some a) l r ∧
        (b < bitlen → side (turn addr b) l r = nil) := by
  induction hwf generalizing fs with
  | nil => exact absurd rfl hne
  | @node c k e l r hc he hg hl hr ihl ihr =>
    rw [descend.eq_def]
    simp only
    split
    · next hgo =>
      -- an absent child stops the descent, and then the node is no glue node
      have stops : side (turn addr k.length) l r = nil → ∃ a, e = some a := by
        intro hs
        cases e with
        | some a => exact ⟨a, rfl⟩
        | none =>
          unfold side at hs
          split at hs
          · exact absurd hs (hg rfl).2
          · exact absurd hs (hg rfl).1
      split
      · next hturn =>
        cases r with
        | nil =>
          obtain ⟨a, rfl⟩ := stops (by rw [hturn]; rfl)
          exact ⟨rfl, hfs, _, a, l, nil, rfl, fun _ => by rw [hturn]; rfl⟩
        | node b' e' l' r' =>
          exact ihr node_ne_nil _ (List.forall_mem_cons.2 ⟨hturn.symm, hfs⟩)
      · next hturn =>
        rw [Bool.not_eq_true] at hturn
        cases l with
        | nil =>
          obtain ⟨a, rfl⟩ := stops (by rw [hturn]; rfl)
          exact ⟨rfl, hfs, _, a, nil, r, rfl, fun _ => by rw [hturn]; rfl⟩
        | node b' e' l' r' =>
          exact ihl node_ne_nil _ (List.forall_mem_cons.2 ⟨hturn.symm, hfs⟩)
    · next hstop =>
      rw [not_or] at hstop
      obtain ⟨a, rfl⟩ := Option.ne_none_iff_exists'.1 hstop.2
      exact ⟨rfl, hfs, _, a, l, r, rfl, fun h => absurd h hstop.1⟩

/-- Climbing stays in the tree, ends below a node that tests a bit before `d`, and either does not
move or passes the last node through a frame at or after `d`. -/
theorem climb_spec (d : Nat) (fs : List (Frame (Entry T))) (t : Tree T) {a : Entry T}
    (ha : a ∈ walk t) :
    (climb d fs t).tree = plug fs t ∧ depthOf [] (climb d fs t).frames ≤ d ∧
      a ∈ walk (climb d fs t).sub ∧
      (climb d fs t = ⟨fs, t⟩ ∨
        ∃ f ∈ fs, ∃ t', (climb d fs t).sub = f.fill t' ∧ a ∈ walk t' ∧ d ≤ f.bit) := by
  induction fs generalizing t with
  | nil => exact ⟨rfl, Nat.zero_le _, ha, Or.inl rfl⟩
  | cons f fs ih =>
    rw [climb]
    split
    · next hle =>
      have ha' : a ∈ walk (f.fill t) := (walk_fill f t).mem_iff.2 (List.mem_append_left _ ha)
      obtain ⟨h1, h2, h3, h4 | ⟨g, hg, t', h4⟩⟩ := ih (f.fill t) ha'
      · exact ⟨h1, h2, h3, Or.inr ⟨f, by simp, t, by rw [h4], ha, hle⟩⟩
      · exact ⟨h1, h2, h3, Or.inr ⟨g, by simp [hg], t', h4⟩⟩
    · next hlt => exact ⟨rfl, by simp only [depthOf]; omega, ha, Or.inl rfl⟩

theorem WF.leaf {c : List Bool} {p : IPPrefix} (h : c <+: p.bits) :
    Radix.WF Entry.key c (leaf p : Tree T) :=
  Radix.WF.node (k := p.bits) h (by rintro a ⟨⟩; rfl) (fun h => nomatch h) (.nil _) (.nil _)

/-- What `patricia_lookup` knows when it links: `p` agrees with the entry `a` below the place on
exactly `d` bits, the place is above bit `d` and its node at or below it, and if the node branches at
bit `d` then `p` has an empty subtree to go to. -/
structure AtDiffer (p : IPPrefix) (addr : Nat → Bool) (d : Nat) (a : Entry T) (loc : Loc T) : Prop where
  agree : p.bits.take d <+: a.key
  le : d ≤ p.length
  differ : d < p.length → d < a.key.length → addr d = !a.key.getD d false
  depth : depthOf [] loc.frames ≤ d
  mem : a ∈ walk loc.sub
  node : ∃ b e l r, loc.sub = node b e l r ∧ d ≤ b ∧
    (b = d → d < p.length → side (turn addr b) l r = nil)

theorem turn_eq {p : IPPrefix} {behind : Nat → Bool} {d : Nat} (h : d < p.length) :
    turn (bitTest p behind) d = p.bits.getD d false := by
  have := Nat.lt_of_lt_of_le h (length_le_maxBits p)
  simp [turn, this, bitTest_eq p behind h]

/-- The new node is the only change that linking makes. -/
theorem link_spec {p : IPPrefix} {behind : Nat → Bool} {d : Nat} {a : Entry T} {loc : Loc T}
    (hwf : WF loc.tree) (habs : ∀ e ∈ walk loc.tree, e.key ≠ p.bits)
    (hat : AtDiffer p (bitTest p behind) d a loc) :
    WF (link p (bitTest p behind) (touchar a.pfx) d loc).tree ∧
      (walk (link p (bitTest p behind) (touchar a.pfx) d loc).tree).Perm
        (⟨p, none⟩ :: walk loc.tree) ∧
      ∃ b l r, (link p (bitTest p behind) (touchar a.pfx) d loc).sub =
        node b (some ⟨p, none⟩) l r := by
  obtain ⟨fs, sub⟩ := loc
  obtain ⟨hagree, hle, hdiffer, hdepth, hmem, b, e, l, r, hsub, hdb, hside⟩ := hat
  simp only at hsub hdepth hmem
  subst hsub
  unfold Loc.tree at hwf habs ⊢
  simp only at hwf habs ⊢
  obtain ⟨c, hc, hclen, hplug⟩ := hwf.plug_inv
  have hck : c.length ≤ d := by omega
  have htake : (p.bits.take d).length = d := List.length_take_of_le hle
  have hcp : c <+: p.bits.take d :=
    List.prefix_of_prefix_length_le (hc.prefix_key hmem) hagree (by omega)
  cases hc with
  | @node _ k _ _ _ hck' he hg hl hr =>
  have hka : k <+: a.key := (Radix.WF.node (List.prefix_refl k) he hg hl hr).prefix_key hmem
  have hpk : p.bits.take d <+: k :=
    List.prefix_of_prefix_length_le hagree hka (by omega)
  unfold link
  simp only
  split
  · -- a glue node sits at the bits of `p`
    next h =>
    have hkp : k = p.bits := by
      rw [← hpk.eq_of_length (by omega), h.1]
      exact List.take_length
    cases e with
    | some x =>
      refine absurd (he x rfl) ?_
      rw [hkp]
      exact habs x (mem_walk_plug (by simp))
    | none =>
      refine ⟨hplug _ node_ne_nil (.node hck' (by rintro x ⟨⟩; exact hkp.symm) ?_ hl hr), ?_,
        _, _, _, rfl⟩
      · exact fun h => by cases h
      · exact walk_plug_congr fs [⟨p, none⟩] (by simp)
  · next hne =>
    split
    · -- the node ends where `p` leaves it, and `p` becomes its child
      next hbd =>
      have hlt : d < p.length := by omega
      have hkp : p.bits.take d = k := hpk.eq_of_length (by omega)
      have hpre : k ++ [turn (bitTest p behind) k.length] <+: p.bits := by
        rw [turn_eq (by omega)]
        exact snoc_prefix (hkp ▸ List.take_prefix _ _) (by rw [hbd]; exact hlt)
      have hnil := hside hbd hlt
      have hother : Radix.WF Entry.key (k ++ [!turn (bitTest p behind) k.length])
          (side (!turn (bitTest p behind) k.length) l r) := by
        cases turn (bitTest p behind) k.length
        · exact hr
        · exact hl
      refine ⟨hplug _ (Frame.fill_ne_nil _ _) (.fill hck' rfl he ?_ (WF.leaf hpre) hother), ?_,
        _, _, _, rfl⟩
      · intro h
        obtain ⟨hl', hr'⟩ := hg h
        cases hx : turn (bitTest p behind) k.length <;> rw [hx] at hnil
        · exact absurd hnil hl'
        · exact absurd hnil hr'
      · refine walk_plug_congr fs [⟨p, none⟩] ((walk_fill _ _).trans ?_)
        cases hx : turn (bitTest p behind) k.length <;> rw [hx] at hnil
        · replace hnil : l = nil := hnil
          simp [Frame.rest, side, leaf, hnil]
        · replace hnil : r = nil := hnil
          simp [Frame.rest, side, leaf, hnil]
    · next hbd =>
      have hdk : d < k.length := by omega
      have hka' : k.getD d false = a.key.getD d false := (prefix_iff_getD.1 hka).2 d hdk
      have hsub : ∀ x, k.getD d false = x →
          Radix.WF Entry.key (p.bits.take d ++ [x]) (node k.length e l r) := by
        rintro x rfl
        have := snoc_prefix hpk (by omega)
        rw [htake] at this
        exact .node this he hg hl hr
      split
      · -- `p` ends above the node and becomes its parent
        next hpd =>
        have hpt : p.bits.take d = p.bits := by rw [← hpd]; exact List.take_length
        rw [hpt] at hcp
        refine ⟨hplug _ (Frame.fill_ne_nil _ _) (.fill hcp rfl ?_ (fun h => by cases h) ?_
          (.nil _)), ?_, ?_⟩
        · rintro x ⟨⟩
          rfl
        · have hmax : d < maxBits := by
            have := length_le_maxBits a.pfx
            have := hka.length_le
            simp only [Entry.key, IPPrefix.length] at *
            omega
          rw [← hpt]
          refine hsub _ ?_
          simp only [hpd, turn, hmax, decide_true, Bool.true_and, hka']
          rfl
        · exact walk_plug_congr fs [⟨p, none⟩]
            ((walk_fill _ _).trans (List.perm_append_singleton (⟨p, none⟩ : Entry T) _))
        · simp only [Frame.fill]
          split <;> exact ⟨_, _, _, rfl⟩
      · -- the two become siblings below a glue node
        next hpd =>
        have hlt : d < p.length := by omega
        have hpre : p.bits.take d ++ [turn (bitTest p behind) d] <+: p.bits := by
          rw [turn_eq hlt]
          have := snoc_prefix (List.take_prefix d p.bits) (by rw [htake]; exact hlt)
          rwa [htake] at this
        have hbit : k.getD d false = !turn (bitTest p behind) d := by
          rw [turn_eq hlt, ← bitTest_eq p behind hlt,
            hdiffer hlt (Nat.lt_of_lt_of_le hdk hka.length_le), Bool.not_not, hka']
        refine ⟨hplug _ (Frame.fill_ne_nil _ _) (.fill hcp htake.symm (fun _ h => by cases h)
          (fun _ => ⟨node_ne_nil, node_ne_nil⟩) (WF.leaf hpre) (hsub _ hbit)), ?_, _, _, _, rfl⟩
        exact walk_plug_congr fs [⟨p, none⟩] ((walk_fill _ _).trans (by simp [Frame.rest, leaf]))

/-- Where the descent ended and the climb stopped is where `p` leaves the tree. -/
theorem atDiffer_climb {p : IPPrefix} {behind : Nat → Bool} {loc : Loc T} (hwf : WF loc.tree)
    (hturn : ∀ f ∈ loc.frames, f.right = turn (bitTest p behind) f.bit)
    {b : Nat} {a : Entry T} {l r : Tree T} (hsub : loc.sub = node b (some a) l r)
    (hnil : b < p.length → side (turn (bitTest p behind) b) l r = nil) {d : Nat}
    (hd : d = differBit (bitTest p behind) (touchar a.pfx) (min b p.length)) :
    AtDiffer p (bitTest p behind) d a (climb d loc.frames loc.sub) := by
  obtain ⟨fs, sub⟩ := loc
  simp only at hsub hturn hwf ⊢
  subst hsub
  have hmem : a ∈ walk (node b (some a) l r) := by simp
  obtain ⟨htree, hdepth, hmem', hcase⟩ := climb_spec d fs _ hmem
  have hmin : d ≤ min b p.length := hd ▸ differBit_le _ _ _
  have hb : b = a.key.length := by
    obtain ⟨c, hc, -⟩ := Radix.WF.plug_inv (t := node b (some a) l r) hwf
    cases hc with
    | node _ he _ _ _ => rw [he a rfl]
  have hagree : ∀ i < d, p.bits.getD i false = a.key.getD i false := by
    intro i hi
    rw [← bitTest_eq p behind (by omega)]
    exact differBit_agree (hd ▸ hi)
  have hdiff : d < p.length → d < b → bitTest p behind d = !a.key.getD d false := by
    intro h1 h2
    have := differBit_differ (a := bitTest p behind) (b := touchar a.pfx) (n := min b p.length)
      (by rw [← hd]; omega)
    rw [← hd] at this
    exact Bool.eq_not_of_ne this
  refine ⟨?_, by omega, fun h1 h2 => hdiff h1 (hb ▸ h2), hdepth, hmem', ?_⟩
  · refine prefix_iff_getD.2 ⟨by simp; omega, fun i hi => ?_⟩
    simp only [List.length_take] at hi
    rw [← hagree i (by omega)]
    simp [List.getD_eq_getElem?_getD, show i < d by omega]
  · rcases hcase with heq | ⟨f, hf, t', hfill, hat', hle⟩
    · rw [heq]
      exact ⟨b, some a, l, r, rfl, by omega, fun hbd hlt => hnil (by omega)⟩
    · -- a frame passed on the way up tests a bit at which `a` and `p` agree
      have hwf' : WF (climb d fs (node b (some a) l r)).tree := by rw [htree]; exact hwf
      rw [Loc.tree, hfill] at hwf'
      obtain ⟨c, hc, -⟩ := hwf'.plug_inv
      obtain ⟨k, -, hbit, ht', -⟩ := hc.fill_inv
      have hpre := prefix_iff_getD.1 (ht'.prefix_key hat')
      simp only [List.length_append, List.length_singleton] at hpre
      have hside : a.key.getD f.bit false = f.right := by
        rw [hbit, ← hpre.2 k.length (by omega)]
        simp [List.getD_eq_getElem?_getD]
      rw [hfill]
      have hne : f.bit = d → ¬ d < p.length := by
        intro hfd hlt
        have h1 := hdiff hlt (by omega)
        rw [← hfd, hside, hturn f hf, turn_eq (by omega), bitTest_eq p behind (by omega)] at h1
        simp at h1
      unfold Frame.fill
      split
      · exact ⟨_, _, _, _, rfl, hle, fun h1 h2 => absurd h2 (hne h1)⟩
      · exact ⟨_, _, _, _, rfl, hle, fun h1 h2 => absurd h2 (hne h1)⟩

/-- Looking up a prefix whose bits are not in the tree adds its node and nothing else. -/
theorem patriciaLookup_spec {t : Tree T} (hwf : WF t) (p : IPPrefix) (behind : Nat → Bool)
    (habs : ∀ e ∈ walk t, e.key ≠ p.bits) :
    WF (patriciaLookup t p behind).tree ∧
      (walk (patriciaLookup t p behind).tree).Perm (⟨p, none⟩ :: walk t) ∧
      ∃ b l r, (patriciaLookup t p behind).sub = node b (some ⟨p, none⟩) l r := by
  cases t with
  | nil => exact ⟨WF.leaf (List.nil_prefix), by simp [patriciaLookup, Loc.tree, leaf], _, _, _, rfl⟩
  | node b₀ e₀ l₀ r₀ =>
    obtain ⟨htree, hturn, b, a, l, r, hsub, hnil⟩ :=
      descend_spec (bitTest p behind) p.length hwf node_ne_nil [] (fun _ h => nomatch h)
    rw [plug_nil] at htree
    simp only [patriciaLookup]
    generalize descend (bitTest p behind) p.length [] (node b₀ e₀ l₀ r₀) = loc at *
    rw [hsub]
    simp only
    have hat := atDiffer_climb (htree ▸ hwf) hturn hsub hnil rfl
    have hclimb := (climb_spec (differBit (bitTest p behind) (touchar a.pfx) (min b p.length))
      loc.frames loc.sub (a := a) (by simp [hsub])).1
    rw [← Loc.tree, htree] at hclimb
    rw [← hsub]
    rw [← hclimb] at hwf habs ⊢
    exact link_spec hwf habs hat

/-- Storing the value changes the data of the node's entry. -/
theorem setData_spec {loc : Loc T} (hwf : WF loc.tree) {b : Nat} {e : Entry T} {l r : Tree T}
    (hsub : loc.sub = node b (some e) l r) (val : T) :
    WF (loc.setData val).tree ∧
      ∃ ctx, (walk loc.tree).Perm (e :: ctx) ∧
        (walk (loc.setData val).tree).Perm ({ e with data := some val } :: ctx) := by
  obtain ⟨fs, sub⟩ := loc
  simp only at hsub
  subst hsub
  unfold Loc.tree at hwf ⊢
  simp only [Loc.setData] at hwf ⊢
  obtain ⟨c, hc, -, hplug⟩ := hwf.plug_inv
  cases hc with
  | node hck he hg hl hr =>
  refine ⟨hplug _ node_ne_nil (.node hck ?_ (fun h => nomatch h) hl hr), ?_⟩
  · rintro x ⟨⟩
    exact he e rfl
  · obtain ⟨ctx, hctx⟩ := walk_plug fs
    exact ⟨_, hctx _, hctx _⟩

/-! ## Best match -/

/-- `comp_with_mask (node->prefix, addr, node->prefix->bitlen)` for the queried prefix. -/
def matches_ (p : IPPrefix) (behind : Nat → Bool) (e : Entry T) : Bool :=
  compWithMask (touchar e.pfx) (bitTest p behind) e.pfx.length

/-- An entry longer than the query that agrees with the zero bits behind it and sits above every
entry within the query: the node at which the descent stops. -/
structure Overshoots (p : IPPrefix) (behind : Nat → Bool) (es : List (Entry T)) (e : Entry T) :
    Prop where
  mem : e ∈ es
  longer : p.length < e.key.length
  agrees : matches_ p behind e = true
  top : ∀ e' ∈ es, p.bits <+: e'.key → e.key <+: e'.key

/-- What `patricia_search_best` may return on the entries `es`. -/
inductive Best (p : IPPrefix) (behind : Nat → Bool) (es : List (Entry T)) :
    Option (Entry T) → Prop
  | overshot {e : Entry T} (h : Overshoots p behind es e) : Best p behind es (some e)
  | longest {e : Entry T} (hm : e ∈ es) (hk : e.key <+: p.bits)
      (hmax : ∀ e' ∈ es, e'.key <+: p.bits → e'.key.length ≤ e.key.length)
      (hno : ∀ e', ¬ Overshoots p behind es e') : Best p behind es (some e)
  | absent (hk : ∀ e ∈ es, ¬ e.key <+: p.bits) (hno : ∀ e', ¬ Overshoots p behind es e') :
      Best p behind es none

theorem matches_iff_prefixed {p : IPPrefix} {behind : Nat → Bool} {e : Entry T}
    (h : e.key.length ≤ p.length) : matches_ p behind e = true ↔ e.key <+: p.bits :=
  compWithMask_prefix behind h

/-- A matching entry at least as long as the query lies within it. -/
theorem prefix_of_matches {p : IPPrefix} {behind : Nat → Bool} {e : Entry T}
    (h : p.length ≤ e.key.length) (hm : matches_ p behind e = true) : p.bits <+: e.key := by
  refine prefix_iff_getD.2 ⟨h, fun i hi => ?_⟩
  rw [← bitTest_eq p behind hi]
  exact (compWithMask_iff.1 hm i (Nat.lt_of_lt_of_le hi h)).symm

theorem searchStack_append (addr : Nat → Bool) (n : Nat) (t : Tree T) (stack : List (Entry T)) :
    searchStack addr n t stack = searchStack addr n t [] ++ stack := by
  induction t generalizing stack with
  | nil => rfl
  | node b e l r ihl ihr =>
    simp only [searchStack]
    split
    · split
      · rw [ihr, ihr (e.toList ++ [])]
        simp
      · rw [ihl, ihl (e.toList ++ [])]
        simp
    · simp

section

variable {p : IPPrefix} {behind : Nat → Bool} {k : List Bool} {e : Option (Entry T)} {l r : Tree T}

/-- Below a node that is not shorter than the query, only the node's own entry can overshoot. -/
theorem overshoots_stop (hle : p.length ≤ k.length) (he : ∀ a, e = some a → a.key = k)
    (hg : e = none → l ≠ nil ∧ r ≠ nil) (hl : Radix.WF Entry.key (k ++ [false]) l)
    (hr : Radix.WF Entry.key (k ++ [true]) r) {x : Entry T}
    (hx : Overshoots p behind (walk (node k.length e l r)) x) : e = some x := by
  have hwf : Radix.WF Entry.key k (node k.length e l r) := .node (List.prefix_refl k) he hg hl hr
  have hpx : p.bits <+: x.key := prefix_of_matches (Nat.le_of_lt hx.longer) hx.agrees
  have hpk : p.bits <+: k := List.prefix_of_prefix_length_le hpx (hwf.prefix_key hx.mem) hle
  have htop : ∀ y ∈ walk (node k.length e l r), x.key <+: y.key :=
    fun y hy => hx.top y hy (hpk.trans (hwf.prefix_key hy))
  cases e with
  | some a =>
    have hxa : x.key <+: a.key := htop a (by simp)
    have hax : a.key <+: x.key := he a rfl ▸ hwf.prefix_key hx.mem
    have := hwf.key_inj hx.mem (by simp) (hxa.eq_of_length_le hax.length_le)
    rw [this]
  | none =>
    obtain ⟨y, hy⟩ := hl.exists_entry (hg rfl).1
    obtain ⟨z, hz⟩ := hr.exists_entry (hg rfl).2
    rcases List.mem_append.1 hx.mem with h | h
    · simp at h
    · rcases List.mem_append.1 h with h | h
      · exact (not_prefix_both ((hl.prefix_key h).trans (htop z (by simp [hz])))
          (hr.prefix_key hz)).elim
      · exact (not_prefix_both (hl.prefix_key hy)
          ((hr.prefix_key h).trans (htop y (by simp [hy])))).elim

/-- The search at a node that is not shorter than the query. -/
theorem best_stop (hle : p.length ≤ k.length) (he : ∀ a, e = some a → a.key = k)
    (hg : e = none → l ≠ nil ∧ r ≠ nil) (hl : Radix.WF Entry.key (k ++ [false]) l)
    (hr : Radix.WF Entry.key (k ++ [true]) r) :
    Best p behind (walk (node k.length e l r)) (e.toList.find? (matches_ p behind)) := by
  have hwf : Radix.WF Entry.key k (node k.length e l r) := .node (List.prefix_refl k) he hg hl hr
  -- an entry that contains the query can only be the node's own
  have hown : ∀ x ∈ walk (node k.length e l r), x.key <+: p.bits → e = some x := by
    intro x hx hxp
    rcases mem_side he hl hr hx hxp with ⟨h, -⟩ | ⟨h, -⟩
    · exact h
    · have h1 : x.key.length ≤ p.length := hxp.length_le
      omega
  cases e with
  | none =>
    refine .absent (fun x hx hxp => ?_) (fun x hx => ?_)
    · cases hown x hx hxp
    · cases overshoots_stop hle he hg hl hr hx
  | some a =>
    have hak : a.key = k := he a rfl
    cases hm : matches_ p behind a with
    | true =>
      simp only [Option.toList_some, List.find?_cons_of_pos hm]
      by_cases hlt : p.length < k.length
      · exact .overshot ⟨by simp, hak ▸ hlt, hm, fun y hy _ => hak ▸ hwf.prefix_key hy⟩
      · refine .longest (by simp) ((matches_iff_prefixed (hak ▸ by omega)).1 hm) ?_ ?_
        · intro x hx hxp
          cases hown x hx hxp
          exact Nat.le_refl _
        · intro x hx
          cases overshoots_stop hle he hg hl hr hx
          have := hx.longer
          rw [hak] at this
          omega
    | false =>
      have hnm : ¬ matches_ p behind a = true := by simp [hm]
      simp only [Option.toList_some, List.find?_cons_of_neg hnm, List.find?_nil]
      refine .absent (fun x hx hxp => ?_) (fun x hx => ?_)
      · cases hown x hx hxp
        exact hnm ((matches_iff_prefixed hxp.length_le).2 hxp)
      · cases overshoots_stop hle he hg hl hr hx
        exact hnm hx.agrees

/-- Below a node shorter than the query, what lies within the query hangs on the query's side. -/
theorem within_side (hlt : k.length < p.length) (he : ∀ a, e = some a → a.key = k)
    (hl : Radix.WF Entry.key (k ++ [false]) l) (hr : Radix.WF Entry.key (k ++ [true]) r)
    {x : Entry T} (hx : x ∈ walk (node k.length e l r)) (hpx : p.bits <+: x.key) :
    x ∈ walk (side (p.bits.getD k.length false) l r) := by
  rcases mem_side he hl hr hx (List.prefix_refl _) with ⟨-, h⟩ | ⟨-, -, h⟩
  · have := hpx.length_le
    rw [h] at this
    exact absurd this (Nat.not_le.2 hlt)
  · rwa [← (prefix_iff_getD.1 hpx).2 k.length hlt] at h

/-- Above the query the search looks on the query's side first, then at the node itself. -/
theorem best_step (hlt : k.length < p.length) (he : ∀ a, e = some a → a.key = k)
    (hl : Radix.WF Entry.key (k ++ [false]) l) (hr : Radix.WF Entry.key (k ++ [true]) r)
    {res : Option (Entry T)}
    (ih : Best p behind (walk (side (p.bits.getD k.length false) l r)) res) :
    Best p behind (walk (node k.length e l r)) (res.or (e.toList.find? (matches_ p behind))) := by
  have hsub : ∀ x ∈ walk (side (p.bits.getD k.length false) l r),
      x ∈ walk (node k.length e l r) ∧ k.length < x.key.length := by
    intro x hx
    have hlen : ∀ y, k ++ [y] <+: x.key → k.length < x.key.length := by
      intro y hy
      have := hy.length_le
      rw [List.length_append] at this
      exact this
    cases hb : p.bits.getD k.length false <;> rw [hb] at hx
    · exact ⟨by simp [show x ∈ walk l from hx], hlen _ (hl.prefix_key hx)⟩
    · exact ⟨by simp [show x ∈ walk r from hx], hlen _ (hr.prefix_key hx)⟩
  have hover : ∀ {x}, Overshoots p behind (walk (node k.length e l r)) x ↔
      Overshoots p behind (walk (side (p.bits.getD k.length false) l r)) x := by
    intro x
    constructor
    · intro h
      have hpx := prefix_of_matches (Nat.le_of_lt h.longer) h.agrees
      exact ⟨within_side hlt he hl hr h.mem hpx, h.longer, h.agrees,
        fun y hy => h.top y (hsub y hy).1⟩
    · intro h
      exact ⟨(hsub x h.mem).1, h.longer, h.agrees,
        fun y hy hpy => h.top y (within_side hlt he hl hr hy hpy) hpy⟩
  cases ih with
  | overshot h => exact .overshot (hover.2 h)
  | @longest a hm hk hmax hno =>
    refine .longest (hsub a hm).1 hk (fun x hx hxp => ?_) (fun x hx => hno x (hover.1 hx))
    rcases mem_side he hl hr hx hxp with ⟨-, h⟩ | ⟨-, -, h⟩
    · rw [h]
      exact Nat.le_of_lt (hsub a hm).2
    · exact hmax x h hxp
  | absent hk hno =>
    have hown : ∀ x ∈ walk (node k.length e l r), x.key <+: p.bits → e = some x := by
      intro x hx hxp
      rcases mem_side he hl hr hx hxp with ⟨h, -⟩ | ⟨-, -, h⟩
      · exact h
      · exact absurd hxp (hk x h)
    cases e with
    | none => exact .absent (fun x hx hxp => nomatch hown x hx hxp) (fun x hx => hno x (hover.1 hx))
    | some a =>
      have hle : a.key.length ≤ p.length := by rw [he a rfl]; exact Nat.le_of_lt hlt
      cases hm : matches_ p behind a with
      | true =>
        simp only [Option.none_or, Option.toList_some, List.find?_cons_of_pos hm]
        refine .longest (by simp) ((matches_iff_prefixed hle).1 hm) (fun x hx hxp => ?_)
          (fun x hx => hno x (hover.1 hx))
        cases hown x hx hxp
        exact Nat.le_refl _
      | false =>
        have hnm : ¬ matches_ p behind a = true := by simp [hm]
        simp only [Option.none_or, Option.toList_some, List.find?_cons_of_neg hnm, List.find?_nil]
        refine .absent (fun x hx hxp => ?_) (fun x hx => hno x (hover.1 hx))
        cases hown x hx hxp
        exact hnm ((matches_iff_prefixed hle).2 hxp)

end

/-- The search returns the longest entry that contains the query, or the entry that overshoots. -/
theorem searchStack_spec (p : IPPrefix) (behind : Nat → Bool) {c : List Bool} {t : Tree T}
    (hwf : Radix.WF Entry.key c t) :
    Best p behind (walk t)
      ((searchStack (bitTest p behind) p.length t []).find? (matches_ p behind)) := by
  induction hwf with
  | nil => exact .absent (by simp) (fun x hx => nomatch hx.mem)
  | @node c k e l r hc he hg hl hr ihl ihr =>
    simp only [searchStack, List.append_nil]
    split
    · next hlt =>
      have hside : Best p behind (walk (side (p.bits.getD k.length false) l r))
          ((searchStack (bitTest p behind) p.length (side (p.bits.getD k.length false) l r)
            []).find? (matches_ p behind)) := by
        cases p.bits.getD k.length false
        · exact ihl
        · exact ihr
      have := best_step hlt he hl hr hside
      rw [← List.find?_append, ← searchStack_append] at this
      rw [bitTest_eq p behind hlt]
      cases hb : p.bits.getD k.length false <;> rw [hb] at this
      · exact this
      · exact this
    · next hge => exact best_stop (Nat.not_lt.1 hge) he hg hl hr

theorem patriciaSearchBest_spec {t : Tree T} (hwf : WF t) (p : IPPrefix) (behind : Nat → Bool) :
    Best p behind (walk t) (patriciaSearchBest t p behind) :=
  searchStack_spec p behind hwf

end Alto.Patricia
