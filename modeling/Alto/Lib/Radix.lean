import Mathlib

/-!
# Path-compressed binary trees

A node of a radix tree tests one bit, may hold an entry, and has two subtrees. The key of every
entry below a node agrees with the node's own bit string on the bits above the tested one; a node
without an entry (a glue node) has two non-empty subtrees. `Radix.WF` is that shape and
`Radix.walk` the list of entries in pre-order.

A place in a tree is a zipper: the frames from the place up to the root, innermost first, and the
subtree at the place. `Radix.plug` puts the two together again. The frames play the part of parent
pointers, so a loop that climbs a tree becomes a recursion on the frames.
-/

namespace Alto.Lib

universe u

/-- A path-compressed binary tree; `nil` is the absent subtree. -/
inductive Radix (α : Type u) where
  | nil
  | node (bit : Nat) (entry : Option α) (l r : Radix α)

namespace Radix

variable {α : Type u}

/-- The entries in pre-order: a node's own entry, then the left and the right subtree. -/
def walk : Radix α → List α
  | nil => []
  | node _ e l r => e.toList ++ (walk l ++ walk r)

@[simp] theorem walk_nil : walk (nil : Radix α) = [] := rfl

@[simp] theorem walk_node (b : Nat) (e : Option α) (l r : Radix α) :
    walk (node b e l r) = e.toList ++ (walk l ++ walk r) := rfl

@[simp] theorem node_ne_nil {b : Nat} {e : Option α} {l r : Radix α} : node b e l r ≠ nil :=
  fun h => nomatch h

/-- The tree with every entry replaced. -/
def map {β : Type u} (f : α → β) : Radix α → Radix β
  | nil => nil
  | node b e l r => node b (e.map f) (map f l) (map f r)

@[simp] theorem map_nil {β : Type u} (f : α → β) : map f nil = nil := rfl

@[simp] theorem map_node {β : Type u} (f : α → β) (b : Nat) (e : Option α) (l r : Radix α) :
    map f (node b e l r) = node b (e.map f) (map f l) (map f r) := rfl

theorem map_ne_nil {β : Type u} {f : α → β} {t : Radix α} (h : t ≠ nil) : map f t ≠ nil := by
  cases t with
  | nil => exact absurd rfl h
  | node => exact node_ne_nil

theorem walk_map {β : Type u} (f : α → β) (t : Radix α) : walk (map f t) = (walk t).map f := by
  induction t with
  | nil => rfl
  | node b e l r ihl ihr => cases e <;> simp [ihl, ihr]

/-! ## Zippers -/

/-- One step of the way from a place up to the root: the parent's bit and entry, the side on which
the place hangs, and the subtree on the other side. -/
structure Frame (α : Type u) where
  bit : Nat
  entry : Option α
  right : Bool
  sibling : Radix α

/-- The parent with the given subtree at the place. -/
def Frame.fill (f : Frame α) (t : Radix α) : Radix α :=
  if f.right then node f.bit f.entry f.sibling t else node f.bit f.entry t f.sibling

/-- The whole tree of a place. -/
def plug : List (Frame α) → Radix α → Radix α
  | [], t => t
  | f :: fs, t => plug fs (f.fill t)

@[simp] theorem plug_nil (t : Radix α) : plug [] t = t := rfl

@[simp] theorem plug_cons (f : Frame α) (fs : List (Frame α)) (t : Radix α) :
    plug (f :: fs) t = plug fs (f.fill t) := rfl

theorem Frame.fill_ne_nil (f : Frame α) (t : Radix α) : f.fill t ≠ nil := by
  unfold Frame.fill
  split <;> exact node_ne_nil

/-- The entries a frame adds to those of its place. -/
def Frame.rest (f : Frame α) : List α := f.entry.toList ++ walk f.sibling

theorem walk_fill (f : Frame α) (t : Radix α) : (walk (f.fill t)).Perm (walk t ++ f.rest) := by
  unfold Frame.fill Frame.rest
  split
  · rw [walk_node, ← List.append_assoc]
    exact List.perm_append_comm
  · rw [walk_node, ← List.append_assoc, ← List.append_assoc]
    exact List.perm_append_comm.append_right _

/-- The entries outside a place do not depend on the subtree at it. -/
theorem walk_plug (fs : List (Frame α)) :
    ∃ ctx : List α, ∀ t, (walk (plug fs t)).Perm (walk t ++ ctx) := by
  induction fs with
  | nil => exact ⟨[], fun t => by simp⟩
  | cons f fs ih =>
    obtain ⟨ctx, h⟩ := ih
    refine ⟨f.rest ++ ctx, fun t => ?_⟩
    calc (walk (plug fs (f.fill t))).Perm (walk (f.fill t) ++ ctx) := h _
      _ |>.Perm ((walk t ++ f.rest) ++ ctx) := (walk_fill f t).append_right ctx
      _ |>.Perm (walk t ++ (f.rest ++ ctx)) := by rw [List.append_assoc]

/-- Replacing the subtree at a place replaces its entries and no others. -/
theorem walk_plug_congr (fs : List (Frame α)) (xs : List α) {t t' : Radix α}
    (h : (walk t').Perm (xs ++ walk t)) : (walk (plug fs t')).Perm (xs ++ walk (plug fs t)) := by
  obtain ⟨ctx, hctx⟩ := walk_plug fs
  have h1 : (walk t' ++ ctx).Perm (xs ++ (walk t ++ ctx)) := by
    rw [← List.append_assoc]; exact h.append_right ctx
  exact (hctx t').trans (h1.trans ((hctx t).symm.append_left xs))

theorem mem_walk_plug {fs : List (Frame α)} {t : Radix α} {a : α} (h : a ∈ walk t) :
    a ∈ walk (plug fs t) := by
  obtain ⟨ctx, hctx⟩ := walk_plug fs
  exact (hctx t).mem_iff.2 (List.mem_append_left _ h)

/-! ## Well-formed trees -/

section WF

variable (key : α → List Bool)

/-- `WF key c t`: every key of `t` extends `c`; the bit a node tests is the length of its own bit
string `k`; an entry sits at the node whose bit string is its key; and a glue node branches. -/
inductive WF : List Bool → Radix α → Prop
  | nil (c : List Bool) : WF c nil
  | node {c k : List Bool} {e : Option α} {l r : Radix α} (hc : c <+: k)
      (he : ∀ a, e = some a → key a = k) (hg : e = none → l ≠ nil ∧ r ≠ nil)
      (hl : WF (k ++ [false]) l) (hr : WF (k ++ [true]) r) : WF c (node k.length e l r)

variable {key}

theorem WF.mono {c c' : List Bool} {t : Radix α} (h : WF key c t) (hc : c' <+: c) :
    WF key c' t := by
  cases h with
  | nil => exact .nil _
  | node hk he hg hl hr => exact .node (hc.trans hk) he hg hl hr

/-- Replacing the entries by ones with the same keys keeps the shape. -/
theorem WF.map {β : Type u} {key' : β → List Bool} {f : α → β} {c : List Bool} {t : Radix α}
    (h : WF key c t) (hf : ∀ a ∈ walk t, key' (f a) = key a) : WF key' c (map f t) := by
  induction h with
  | nil => exact .nil _
  | @node c k e l r hc he hg hl hr ihl ihr =>
    rw [map_node]
    refine .node hc (fun b hb => ?_) (fun hb => ?_) (ihl fun a ha => hf a ?_)
      (ihr fun a ha => hf a ?_)
    · obtain ⟨a, rfl, rfl⟩ := Option.map_eq_some_iff.1 hb
      rw [hf a (by simp), he a rfl]
    · obtain ⟨hl', hr'⟩ := hg (Option.map_eq_none_iff.1 hb)
      exact ⟨map_ne_nil hl', map_ne_nil hr'⟩
    · exact List.mem_append_right _ (List.mem_append_left _ ha)
    · exact List.mem_append_right _ (List.mem_append_right _ ha)

/-- Every key of a well-formed tree extends the tree's bit string. -/
theorem WF.prefix_key {c : List Bool} {t : Radix α} (h : WF key c t) {a : α} (ha : a ∈ walk t) :
    c <+: key a := by
  induction h with
  | nil => cases ha
  | node hc he _ _ _ ihl ihr =>
    rcases List.mem_append.1 ha with hea | ha
    · rw [he a (by simpa using hea)]
      exact hc
    · rcases List.mem_append.1 ha with hl | hr
      · exact hc.trans ((List.prefix_append _ _).trans (ihl hl))
      · exact hc.trans ((List.prefix_append _ _).trans (ihr hr))

theorem WF.exists_entry {c : List Bool} {t : Radix α} (h : WF key c t) (hne : t ≠ .nil) :
    ∃ a, a ∈ walk t := by
  induction h with
  | nil => exact absurd rfl hne
  | @node _ _ e l r _ _ hg _ _ ihl _ =>
    cases e with
    | some a => exact ⟨a, by simp⟩
    | none =>
      obtain ⟨a, ha⟩ := ihl (hg rfl).1
      exact ⟨a, by simp [ha]⟩

/-- Two bit strings that leave a common prefix on different sides cannot share an extension. -/
theorem not_prefix_both {k m : List Bool} (h0 : k ++ [false] <+: m) (h1 : k ++ [true] <+: m) :
    False := by
  have h := List.prefix_of_prefix_length_le h0 h1 (by simp)
  have := h.eq_of_length (by simp)
  simp at this

/-- No two entries of a well-formed tree have the same key. -/
theorem WF.nodup_keys {c : List Bool} {t : Radix α} (h : WF key c t) :
    ((walk t).map key).Nodup := by
  induction h with
  | nil => simp
  | @node c k e l r hc he _ hl hr ihl ihr =>
    have below : ∀ a ∈ walk l ++ walk r, k.length < (key a).length := by
      intro a ha
      rcases List.mem_append.1 ha with ha | ha
      · have := (hl.prefix_key ha).length_le
        simp only [List.length_append, List.length_singleton] at this
        omega
      · have := (hr.prefix_key ha).length_le
        simp only [List.length_append, List.length_singleton] at this
        omega
    rw [walk_node, List.map_append, List.nodup_append]
    refine ⟨by cases e <;> simp, ?_, ?_⟩
    · rw [List.map_append, List.nodup_append]
      refine ⟨ihl, ihr, ?_⟩
      intro x hx y hy hxy
      obtain ⟨a, ha, rfl⟩ := List.mem_map.1 hx
      obtain ⟨b, hb, rfl⟩ := List.mem_map.1 hy
      exact not_prefix_both (hl.prefix_key ha) (hxy ▸ hr.prefix_key hb)
    · intro x hx y hy hxy
      obtain ⟨a, ha, rfl⟩ := List.mem_map.1 hx
      obtain ⟨b, hb, rfl⟩ := List.mem_map.1 hy
      have := below b hb
      rw [← hxy, he a (by simpa using ha)] at this
      exact Nat.lt_irrefl _ this

/-- Entries of a well-formed tree with the same key are the same entry. -/
theorem WF.key_inj {c : List Bool} {t : Radix α} (h : WF key c t) {a b : α} (ha : a ∈ walk t)
    (hb : b ∈ walk t) (hk : key a = key b) : a = b :=
  List.inj_on_of_nodup_map h.nodup_keys ha hb hk

/-! ## Uniqueness -/

/-- Where the entries of a node are. -/
theorem mem_walk_node {k : List Bool} {e : Option α} {l r : Radix α}
    (he : ∀ a, e = some a → key a = k) (hl : WF key (k ++ [false]) l)
    (hr : WF key (k ++ [true]) r) (a : α) :
    (e = some a ↔ a ∈ walk (node k.length e l r) ∧ key a = k) ∧
      (a ∈ walk l ↔ a ∈ walk (node k.length e l r) ∧ k ++ [false] <+: key a) ∧
      (a ∈ walk r ↔ a ∈ walk (node k.length e l r) ∧ k ++ [true] <+: key a) := by
  have hlong : ∀ (b : Bool), key a = k → ¬ k ++ [b] <+: key a := by
    intro b hk hp
    have := hp.length_le
    rw [hk, List.length_append, List.length_singleton] at this
    omega
  have hmem : a ∈ walk (node k.length e l r) ↔ e = some a ∨ a ∈ walk l ∨ a ∈ walk r := by
    simp [walk_node]
  rw [hmem]
  refine ⟨⟨fun h => ⟨Or.inl h, he a h⟩, ?_⟩, ⟨fun h => ⟨Or.inr (Or.inl h), hl.prefix_key h⟩, ?_⟩,
    ⟨fun h => ⟨Or.inr (Or.inr h), hr.prefix_key h⟩, ?_⟩⟩
  · rintro ⟨h | h | h, hk⟩
    · exact h
    · exact absurd (hl.prefix_key h) (hlong _ hk)
    · exact absurd (hr.prefix_key h) (hlong _ hk)
  · rintro ⟨h | h | h, hk⟩
    · exact absurd hk (hlong _ (he a h))
    · exact h
    · exact (not_prefix_both hk (hr.prefix_key h)).elim
  · rintro ⟨h | h | h, hk⟩
    · exact absurd hk (hlong _ (he a h))
    · exact (not_prefix_both (hl.prefix_key h) hk).elim
    · exact h

/-- The bit string of a node is a prefix of every string that all its keys extend, if it is one
itself. -/
theorem prefix_of_forall_key {k m : List Bool} {e : Option α} {l r : Radix α}
    (he : ∀ a, e = some a → key a = k) (hg : e = none → l ≠ nil ∧ r ≠ nil)
    (hl : WF key (k ++ [false]) l) (hr : WF key (k ++ [true]) r)
    (h : ∀ a ∈ walk (node k.length e l r), m <+: key a) : m <+: k := by
  cases e with
  | some a =>
    rw [← he a rfl]
    exact h a (by simp)
  | none =>
    obtain ⟨hnl, hnr⟩ := hg rfl
    obtain ⟨a, ha⟩ := hl.exists_entry hnl
    obtain ⟨b, hb⟩ := hr.exists_entry hnr
    have hma := h a (by simp [ha])
    have hmb := h b (by simp [hb])
    rcases Nat.lt_or_ge k.length m.length with hlt | hge
    · have hk0 : k ++ [false] <+: m := List.prefix_of_prefix_length_le (hl.prefix_key ha) hma (by simpa)
      have hk1 : k ++ [true] <+: m := List.prefix_of_prefix_length_le (hr.prefix_key hb) hmb (by simpa)
      exact (not_prefix_both hk0 hk1).elim
    · exact List.prefix_of_prefix_length_le hma
        ((List.prefix_append k _).trans (hl.prefix_key ha)) hge

/-- A well-formed tree is determined by its entries. -/
theorem eq_of_walk {c c' : List Bool} {t t' : Radix α} (h : WF key c t) (h' : WF key c' t')
    (hmem : ∀ a, a ∈ walk t ↔ a ∈ walk t') : t = t' := by
  induction h generalizing c' t' with
  | nil =>
    by_contra hne
    obtain ⟨a, ha⟩ := h'.exists_entry (Ne.symm hne)
    simpa using (hmem a).2 ha
  | @node c k e l r hc he hg hl hr ihl ihr =>
    have hnode : WF key k (node k.length e l r) := .node (List.prefix_refl k) he hg hl hr
    cases h' with
    | nil =>
      obtain ⟨a, ha⟩ := hnode.exists_entry node_ne_nil
      simpa using (hmem a).1 ha
    | @node _ k' e' l' r' hc' he' hg' hl' hr' =>
      have hnode' : WF key k' (node k'.length e' l' r') := .node (List.prefix_refl k') he' hg' hl' hr'
      obtain rfl : k = k' := by
        have h1 : k <+: k' := prefix_of_forall_key he' hg' hl' hr' fun a ha =>
          hnode.prefix_key ((hmem a).2 ha)
        have h2 : k' <+: k := prefix_of_forall_key he hg hl hr fun a ha =>
          hnode'.prefix_key ((hmem a).1 ha)
        exact h1.eq_of_length_le h2.length_le
      have hsides := fun a => mem_walk_node he hl hr a
      have hsides' := fun a => mem_walk_node he' hl' hr' a
      obtain rfl : e = e' := by
        refine Option.ext fun a => ?_
        show e = some a ↔ e' = some a
        rw [(hsides a).1, (hsides' a).1, hmem]
      obtain rfl := ihl hl' fun a => by rw [(hsides a).2.1, (hsides' a).2.1, hmem]
      obtain rfl := ihr hr' fun a => by rw [(hsides a).2.2, (hsides' a).2.2, hmem]
      rfl

/-- Where a bit string leaves a place: the root's own string for the empty zipper, and otherwise
one bit more than the innermost frame tests. -/
def depthOf (c : List Bool) : List (Frame α) → Nat
  | [] => c.length
  | f :: _ => f.bit + 1

/-- Inversion of a filled frame. -/
theorem WF.fill_inv {c : List Bool} {f : Frame α} {t : Radix α} (h : WF key c (f.fill t)) :
    ∃ k : List Bool, c <+: k ∧ f.bit = k.length ∧ WF key (k ++ [f.right]) t ∧
      WF key (k ++ [!f.right]) f.sibling ∧ (f.entry = none → t ≠ .nil ∧ f.sibling ≠ .nil) ∧
      ∀ t', (f.entry = none → t' ≠ .nil) → WF key (k ++ [f.right]) t' → WF key c (f.fill t') := by
  obtain ⟨b, e, right, s⟩ := f
  cases right with
  | false =>
    simp only [Frame.fill, Bool.false_eq_true, ↓reduceIte] at h ⊢
    cases h with
    | node hc he hg hl hr =>
      exact ⟨_, hc, rfl, hl, hr, hg, fun t' hne ht' => .node hc he (fun e => ⟨hne e, (hg e).2⟩) ht' hr⟩
  | true =>
    simp only [Frame.fill, ↓reduceIte] at h ⊢
    cases h with
    | node hc he hg hl hr =>
      exact ⟨_, hc, rfl, hr, hl, fun e => (hg e).symm,
        fun t' hne ht' => .node hc he (fun e => ⟨(hg e).1, hne e⟩) hl ht'⟩

theorem WF.fill {c k : List Bool} {f : Frame α} {t : Radix α} (hc : c <+: k)
    (hb : f.bit = k.length) (he : ∀ a, f.entry = some a → key a = k)
    (hg : f.entry = none → t ≠ .nil ∧ f.sibling ≠ .nil) (ht : WF key (k ++ [f.right]) t)
    (hs : WF key (k ++ [!f.right]) f.sibling) : WF key c (f.fill t) := by
  obtain ⟨b, e, right, s⟩ := f
  simp only at hb
  subst hb
  cases right with
  | false => exact .node hc he hg ht hs
  | true => exact .node hc he (fun h => (hg h).symm) hs ht

/-- The subtree at a place of a well-formed tree is well formed for some bit string, and may be
replaced by any non-empty tree that is. -/
theorem WF.plug_inv {c : List Bool} {fs : List (Frame α)} {t : Radix α}
    (h : WF key c (plug fs t)) :
    ∃ d : List Bool, WF key d t ∧ d.length = depthOf c fs ∧
      ∀ t', t' ≠ .nil → WF key d t' → WF key c (plug fs t') := by
  induction fs generalizing t with
  | nil => exact ⟨c, h, rfl, fun t' _ ht' => ht'⟩
  | cons f fs ih =>
    obtain ⟨d, hd, -, hplug⟩ := ih h
    obtain ⟨k, hk, hbit, ht, -, -, hfill⟩ := hd.fill_inv
    refine ⟨k ++ [f.right], ht, by simp [depthOf, hbit], fun t' hne ht' => ?_⟩
    exact hplug _ (f.fill_ne_nil t') (hfill t' (fun _ => hne) ht')

end WF

end Radix

end Alto.Lib
