import Btlib.Theory.Siblings

-- Whether a deletion that empties nodes on its way up finds siblings with room for what is left of them.
namespace Multiway

variable {ι E K C : Type} {n m cap half thr : Nat} [LinearOrder K] {κ : E → K} {k : K}

-- The child a search for `k` goes down to: the one before the first entry that is not below `k`.
def below (κ : E → K) (k : K) (es : List E) : Nat := es.countP fun e => κ e < k

theorem below_append {l r : List E} (hl : ∀ e ∈ l, κ e < k) : below κ k (l ++ r) = l.length + below κ k r := by
  rw [below, List.countP_append, List.countP_eq_length.2 (by simpa using hl), below]

theorem below_none {r : List E} (hr : ∀ e ∈ r, k ≤ κ e) : below κ k r = 0 := by
  refine List.countP_eq_zero.2 fun e he => ?_
  simpa using hr e he

theorem below_append_none {l r : List E} (hr : ∀ e ∈ r, k ≤ κ e) : below κ k (l ++ r) = below κ k l := by
  have h := below_none hr
  rw [below] at h ⊢
  rw [List.countP_append, h, Nat.add_zero, below]

section Siblings

variable {lk rk : List C} {i : Nat}

-- The sibling that is next to the child `i`: the one on the left where there is one.
def sibling (ks : List C) (i : Nat) : Option C := if i = 0 then ks[1]? else ks[i - 1]?

theorem sibling_append_left (h : i < lk.length) (h2 : 2 ≤ lk.length) : sibling (lk ++ rk) i = sibling lk i := by
  unfold sibling
  split <;> exact List.getElem?_append_left (by omega)

theorem sibling_append_right (h : i ≠ 0) : sibling (lk ++ rk) (lk.length + i) = sibling rk i := by
  rw [sibling, sibling, if_neg (by omega), if_neg h, List.getElem?_append_right (by omega)]
  congr 1
  omega

-- The sibling once a full node, of `size` entries, has been cut after its first `half`.
def taker (cap half size : Nat) (ks : List C) (i : Nat) : Option C :=
  if size = cap ∧ i = half + 1 then ks[i + 1]? else sibling ks i

theorem mem_of_taker {cap half size : Nat} {ks : List C} {u : C} (h : u ∈ taker cap half size ks i) : u ∈ ks := by
  unfold taker sibling at h
  split at h
  · exact List.mem_of_getElem? h
  · split at h
    · exact List.mem_of_getElem? h
    · exact List.mem_of_getElem? h

end Siblings

namespace BTree

-- The node at the top loses its only entry when `k` goes: its two leaves are joined, or the child that lost its
-- own only entry is put into the other one.
def Empties (cap thr : Nat) (κ : E → K) (k : K) : {n : Nat} → BTree ι E n → Prop
  | 0, _ => False
  | 1, _ => False
  | 2, t => (Node.ents t).length = 1 ∧ ∃ c ∈ (Node.kids t)[below κ k (Node.ents t)]?,
      ∀ u ∈ sibling (Node.kids t) (below κ k (Node.ents t)), c.width - 1 + width (n := 1) u + thr < cap
  | n + 3, t => (Node.ents t).length = 1 ∧ ∃ c ∈ (Node.kids t)[below κ k (Node.ents t)]?,
      Empties cap thr κ k (n := n + 2) c

-- A child that is emptied when `k` goes has a sibling with room for one more entry.
def Roomy (cap half thr : Nat) (κ : E → K) (k : K) : {n : Nat} → BTree ι E n → Prop
  | 0, _ => True
  | _ + 1, t => ∀ c ∈ (Node.kids t)[below κ k (Node.ents t)]?, Roomy cap half thr κ k c ∧ (c.Empties cap thr κ k →
      ∀ u ∈ taker cap half (Node.ents t).length (Node.kids t) (below κ k (Node.ents t)), width u < cap)

theorem roomy_node {a : ι} {es : List E} {ks : List (BTree ι E n)} : (node a es ks).Roomy cap half thr κ k ↔
    ∀ c ∈ ks[below κ k es]?, c.Roomy cap half thr κ k ∧
      (c.Empties cap thr κ k → ∀ u ∈ taker cap half es.length ks (below κ k es), u.width < cap) := Iff.rfl

theorem Empties.length {t : BTree ι E (n + 1)} (h : t.Empties cap thr κ k) : (Node.ents t).length = 1 := by
  cases n with
  | zero => exact h.elim
  | succ n =>
      cases n with
      | zero => exact h.1
      | succ n => exact h.1

theorem length_le_of_mem {a : ι} {es : List E} {ks : List (BTree ι E n)} {c : BTree ι E n} (h : c ∈ ks) :
    c.inorder.length ≤ (node a es ks).inorder.length := by
  rw [inorder_node, length_weave]
  have := List.le_sum_of_mem (List.mem_map_of_mem (f := List.length) (List.mem_map_of_mem (f := inorder) h))
  omega

theorem roomy_of_length {low : Nat} {t : BTree ι E n} (h : t.Wf cap low) (hfew : t.inorder.length ≤ 2 * cap) :
    t.Roomy cap half thr κ k := by
  induction n generalizing low with
  | zero => trivial
  | succ n ih =>
      obtain ⟨a,es,ks,rfl⟩ := t.eq_node
      obtain ⟨-,-,-,hks⟩ := wf_node.1 h
      refine roomy_node.2 fun c hc => ⟨?_,fun hempty u hu => ?_⟩
      · have hmem := List.mem_of_getElem? hc
        exact ih (hks c hmem) ((length_le_of_mem hmem).trans hfew)
      · have hmem := mem_of_taker hu
        cases n with
        | zero => exact hempty.elim
        | succ n =>
            cases n with
            | zero => exact hempty.elim
            | succ n =>
                have hw := width_le_length (hks u hmem)
                have hlen : u.inorder.length ≤ (node a es ks).inorder.length := length_le_of_mem hmem
                omega

end BTree

namespace Frame

-- A node around a child that the search for `k` goes down to.
def Leads (κ : E → K) (k : K) (f : Frame ι E n) : Prop := (∀ e ∈ f.le, κ e < k) ∧ ∀ e ∈ f.re, k ≤ κ e

variable {f : Frame ι E n} {c : BTree ι E n}

theorem Leads.below (h : f.Leads κ k) : below κ k (f.le ++ f.re) = f.lk.length := by
  rw [below_append h.1, below_none h.2, f.hl, Nat.add_zero]

theorem sibling_fill : sibling (f.lk ++ c :: f.rk) f.lk.length = f.beside := by
  unfold sibling beside
  cases hlk : f.lk.getLast? with
  | none =>
      rw [List.getLast?_eq_none_iff] at hlk
      simp [hlk, List.head?_eq_getElem?]
  | some u =>
      have hne : f.lk ≠ [] := fun h => by simp [h] at hlk
      have hpos := List.length_pos_iff.2 hne
      rw [if_neg (by omega), List.getElem?_append_left (by omega), ← List.getLast?_eq_getElem?, hlk, Option.some_or]

theorem taker_fill (h : f.size = cap → f.lk.length ≠ half + 1) :
    taker cap half (f.le ++ f.re).length (f.lk ++ c :: f.rk) f.lk.length = f.beside := by
  rw [taker, List.length_append, if_neg fun hc => h hc.1 hc.2, sibling_fill]

theorem Leads.roomy_iff (h : f.Leads κ k) : (f.fill c).Roomy cap half thr κ k ↔ c.Roomy cap half thr κ k ∧
    (c.Empties cap thr κ k →
      ∀ u ∈ taker cap half (f.le ++ f.re).length (f.lk ++ c :: f.rk) f.lk.length, u.width < cap) := by
  rw [fill, BTree.roomy_node, h.below]
  simp

theorem Leads.empties_iff {f : Frame ι E (n + 2)} {c : BTree ι E (n + 2)} (h : f.Leads κ k) :
    (f.fill c).Empties cap thr κ k ↔ f.size = 1 ∧ c.Empties cap thr κ k := by
  have hlen : (f.le ++ f.re).length = f.size := List.length_append
  change (f.le ++ f.re).length = 1 ∧ (∃ d ∈ (f.lk ++ c :: f.rk)[Multiway.below κ k (f.le ++ f.re)]?, _) ↔ _
  rw [h.below, hlen]
  simp

theorem Leads.empties_leaf_iff {f : Frame ι E 1} {c : BTree ι E 1} (h : f.Leads κ k) :
    (f.fill c).Empties cap thr κ k ↔ f.size = 1 ∧ ∀ u ∈ f.beside, c.width - 1 + u.width + thr < cap := by
  have hlen : (f.le ++ f.re).length = f.size := List.length_append
  change (f.le ++ f.re).length = 1 ∧ (∃ d ∈ (f.lk ++ c :: f.rk)[Multiway.below κ k (f.le ++ f.re)]?,
    ∀ u ∈ sibling (f.lk ++ c :: f.rk) (Multiway.below κ k (f.le ++ f.re)), _) ↔ _
  rw [h.below, hlen, sibling_fill]
  simp

end Frame

namespace Path

def Leads (κ : E → K) (k : K) : {n m : Nat} → Path ι E n m → Prop
  | _, _, root => True
  | _, _, step f p => f.Leads κ k ∧ p.Leads κ k

theorem leads_of {p : Path ι E n m} (hl : ∀ e ∈ p.left, κ e < k) (hr : ∀ e ∈ p.right, k ≤ κ e) : p.Leads κ k := by
  induction p with
  | root => trivial
  | step f p ih =>
      refine ⟨⟨fun e he => hl e ?_,fun e he => hr e ?_⟩,ih (fun e he => hl e ?_) fun e he => hr e ?_⟩
      · exact List.mem_append_right _ (mem_weave.2 (Or.inr he))
      · exact List.mem_append_left _ (mem_weave.2 (Or.inr he))
      · exact List.mem_append_left _ he
      · exact List.mem_append_right _ he

-- No full node of the path is left by the child that a cut makes the first of its second half.
def Uncut (cap half : Nat) : {n m : Nat} → Path ι E n m → Prop
  | _, _, root => True
  | _, _, step f p => (f.size = cap → f.lk.length ≠ half + 1) ∧ p.Uncut cap half

theorem Leads.roomy {p : Path ι E n m} (h : p.Leads κ k) {c : BTree ι E n} (hr : (p.plug c).Roomy cap half thr κ k) :
    c.Roomy cap half thr κ k := by
  induction p with
  | root => exact hr
  | step f p ih => exact (h.1.roomy_iff.1 (ih h.2 hr)).1

theorem Leads.spares {p : Path ι E n m} (hn : 2 ≤ n) (h : p.Leads κ k) (hu : p.Uncut cap half) {c : BTree ι E n}
    (hr : (p.plug c).Roomy cap half thr κ k) (hc : c.Empties cap thr κ k) : p.Spares cap := by
  induction p with
  | root => trivial
  | @step n m f p ih =>
      obtain ⟨n,rfl⟩ : ∃ j, n = j + 2 := ⟨n - 2,by omega⟩
      have hfill := h.1.roomy_iff.1 (Leads.roomy h.2 hr)
      rw [Frame.taker_fill hu.1] at hfill
      exact ⟨hfill.2 hc,fun hs => ih (by omega) h.2 hu.2 hr (h.1.empties_iff.2 ⟨hs,hc⟩)⟩

-- Few entries leave no sibling full.
theorem spares_of_length {p : Path ι E n m} (hn : 2 ≤ n) {c : BTree ι E n} (hwf : (p.plug c).RootWf cap)
    (hfew : (p.plug c).inorder.length ≤ 2 * cap) : p.Spares cap := by
  induction p with
  | root => trivial
  | @step n m f p ih =>
      obtain ⟨n,rfl⟩ : ∃ j, n = j + 2 := ⟨n - 2,by omega⟩
      refine ⟨fun u hu => ?_,fun _ => ih (by omega) hwf hfew⟩
      have hmem : u ∈ f.lk ++ c :: f.rk := by
        rcases Option.or_eq_some_iff.1 hu with hl | ⟨-,hr⟩
        · exact List.mem_append_left _ (List.mem_of_getLast? hl)
        · exact List.mem_append_right _ (List.mem_cons_of_mem c (List.mem_of_head? hr))
      have hf := ((p.rootWf_plug_iff _).1 hwf).2
      have hw := BTree.width_le_length ((BTree.wf_node.1 hf).2.2.2 u hmem)
      have hlen : u.inorder.length ≤ (f.fill c).inorder.length := BTree.length_le_of_mem hmem
      rw [plug_step, p.inorder_plug] at hfew
      simp only [List.length_append] at hfew
      omega

theorem Leads.roomy_plug {p : Path ι E n m} (hn : 2 ≤ n) (h : p.Leads κ k) {c d : BTree ι E n}
    (hr : (p.plug c).Roomy cap half thr κ k) (hroomy : c.Roomy cap half thr κ k → d.Roomy cap half thr κ k)
    (hempty : ¬ d.Empties cap thr κ k) : (p.plug d).Roomy cap half thr κ k := by
  induction p with
  | root => exact hroomy hr
  | @step n m f p ih =>
      obtain ⟨n,rfl⟩ : ∃ j, n = j + 2 := ⟨n - 2,by omega⟩
      refine ih (by omega) h.2 hr (fun hf => ?_) fun hf => hempty (h.1.empties_iff.1 hf).2
      exact h.1.roomy_iff.2 ⟨hroomy (h.1.roomy_iff.1 hf).1,fun hd => absurd hd hempty⟩

end Path

-- A full node is cut in two after its first `half` entries, and gives the next one to the node above.
section Cut

variable {a b : ι} {l r : List E} {e : E} {lk rk : List (BTree ι E n)}

theorem BTree.Roomy.cut_left (h : (BTree.node a (l ++ e :: r) (lk ++ rk)).Roomy cap half thr κ k)
    (hlk : lk.length = l.length + 1) (hl : l.length = half) (hhalf : 1 ≤ half) (hcap : half < cap)
    (her : ∀ x ∈ e :: r, k ≤ κ x) : (BTree.node a l lk).Roomy cap half thr κ k := by
  have hle : below κ k l ≤ l.length := List.countP_le_length
  rw [roomy_node, below_append_none her, List.getElem?_append_left (by omega)] at h
  refine roomy_node.2 fun c hc => ⟨(h c hc).1,fun hempty u hu => (h c hc).2 hempty u ?_⟩
  rw [taker, if_neg (by omega)] at hu
  rw [taker, if_neg (by omega), sibling_append_left (by omega) (by omega)]
  exact hu

theorem BTree.Roomy.cut_right (h : (BTree.node a (l ++ e :: r) (lk ++ rk)).Roomy cap half thr κ k)
    (hlk : lk.length = l.length + 1) (hl : l.length = half) (hcap : (l ++ e :: r).length = cap)
    (hle : ∀ x ∈ l, κ x < k) (he : κ e < k) : (BTree.node b r rk).Roomy cap half thr κ k := by
  have hbelow : below κ k (l ++ e :: r) = lk.length + below κ k r := by
    rw [below_append hle, hlk, below, List.countP_cons_of_pos (by simpa using he), below]
    omega
  have hlen : r.length < cap := by
    rw [← hcap, List.length_append, List.length_cons]
    omega
  rw [roomy_node, hbelow, List.getElem?_append_right (by omega), Nat.add_sub_cancel_left] at h
  refine roomy_node.2 fun c hc => ⟨(h c hc).1,fun hempty u hu => (h c hc).2 hempty u ?_⟩
  rw [taker, if_neg (by omega)] at hu
  rcases Nat.eq_zero_or_pos (below κ k r) with h0 | hpos
  · -- the first child of the second half has lost its sibling on the left
    rw [taker, h0, Nat.add_zero, if_pos ⟨hcap,by omega⟩, List.getElem?_append_right (by omega), Nat.add_sub_cancel_left]
    rwa [sibling, if_pos h0] at hu
  · rw [taker, if_neg (by omega), sibling_append_right (by omega)]
    exact hu

variable (hlk : lk.length = l.length + 1) (hl : l.length = half) (hhalf : 2 ≤ half) (hr : 2 ≤ r.length)
  (hcap : (l ++ e :: r).length = cap) (hsort : Sorted κ (l ++ e :: r))
include hlk hl hhalf hr hcap hsort

theorem Frame.Leads.roomy_fillTwo {f : Frame ι E (n + 1)} (h : f.Leads κ k)
    (hroomy : (f.fill (BTree.node a (l ++ e :: r) (lk ++ rk))).Roomy cap half thr κ k) :
    (f.fillTwo (BTree.node a l lk) e (BTree.node b r rk)).Roomy cap half thr κ k := by
  have hnode := (h.roomy_iff.1 hroomy).1
  have hlow : l.length < (l ++ e :: r).length := by simp
  rcases le_or_gt k (κ e) with he | he
  · have her : ∀ x ∈ e :: r, k ≤ κ x := fun x hx => (List.mem_cons.1 hx).elim (fun hx => hx ▸ he)
      fun hx => he.trans ((List.pairwise_cons.1 hsort.right).1 x hx).le
    have hleads : (f.withRight e (BTree.node b r rk)).Leads κ k :=
      ⟨h.1,fun x hx => (List.mem_cons.1 hx).elim (fun hx => hx ▸ he) (h.2 x)⟩
    refine hleads.roomy_iff.2 ⟨hnode.cut_left hlk hl (by omega) (by omega) her,fun hempty => ?_⟩
    have := hempty.length
    change l.length = 1 at this
    omega
  · have hle : ∀ x ∈ l, κ x < k := fun x hx => (hsort.lt hx List.mem_cons_self).trans he
    have hleads : (f.withLeft e (BTree.node a l lk)).Leads κ k := by
      refine ⟨fun x hx => ?_,h.2⟩
      rcases List.mem_append.1 hx with hx | hx
      · exact h.1 x hx
      · exact List.mem_singleton.1 hx ▸ he
    rw [← f.fill_withLeft]
    refine hleads.roomy_iff.2 ⟨hnode.cut_right hlk hl hcap hle he,fun hempty => ?_⟩
    have := hempty.length
    change r.length = 1 at this
    omega

theorem Path.Leads.roomy_cut {f : Frame ι E (n + 1)} {p : Path ι E (n + 2) m} (h : (step f p).Leads κ k)
    (hf : f.size ≠ 0) (hroomy : ((step f p).plug (BTree.node a (l ++ e :: r) (lk ++ rk))).Roomy cap half thr κ k) :
    (p.plug (f.fillTwo (BTree.node a l lk) e (BTree.node b r rk))).Roomy cap half thr κ k := by
  refine h.2.roomy_plug (by omega) hroomy (h.1.roomy_fillTwo hlk hl hhalf hr hcap hsort) fun hempty => ?_
  have hlen := hempty.length
  change (f.le ++ e :: f.re).length = 1 at hlen
  rw [List.length_append, List.length_cons] at hlen
  rw [Frame.size] at hf
  omega

theorem BTree.Roomy.cut_root {c : ι} (h : (BTree.node c (l ++ e :: r) (lk ++ rk)).Roomy cap half thr κ k) :
    (BTree.node c [e] [BTree.node a l lk, BTree.node b r rk]).Roomy cap half thr κ k := by
  have hlow : l.length < (l ++ e :: r).length := by simp
  have hone : ∀ {d : ι} {es : List E} {ks : List (BTree ι E n)}, 2 ≤ es.length →
      ¬ (BTree.node d es ks).Empties cap thr κ k := fun {_ es _} h2 hempty => by
    have : es.length = 1 := hempty.length
    omega
  rcases le_or_gt k (κ e) with he | he
  · have her : ∀ x ∈ e :: r, k ≤ κ x := fun x hx => (List.mem_cons.1 hx).elim (fun hx => hx ▸ he)
      fun hx => he.trans ((List.pairwise_cons.1 hsort.right).1 x hx).le
    rw [roomy_node, below_none (by simpa using he)]
    rintro d ⟨⟩
    have hlen : 2 ≤ l.length := by omega
    exact ⟨h.cut_left hlk hl (by omega) (by omega) her,fun hempty => absurd hempty (hone hlen)⟩
  · have hle : ∀ x ∈ l, κ x < k := fun x hx => (hsort.lt hx List.mem_cons_self).trans he
    have hbelow : below κ k [e] = 1 := by simp [below, he]
    rw [roomy_node, hbelow]
    rintro d ⟨⟩
    exact ⟨h.cut_right hlk hl hcap hle he,fun hempty => absurd hempty (hone hr)⟩

end Cut

end Multiway
