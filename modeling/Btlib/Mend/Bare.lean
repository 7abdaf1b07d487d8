import Btlib.Index.Find

namespace Btlib

namespace Block

variable {b f : Block} {l r : List KeyEnt} {ll lr : List Int} {e ke : KeyEnt} {c d : Int}

theorem closeGap_eq (n : Nat) (i : Int) (b : Block) : closeGap n i b = { b with
    keyblk := fun x => if i ≤ x ∧ x < i + n then b.keyblk (x + 1) else b.keyblk x,
    lnkblk := fun x => if i + 1 ≤ x ∧ x < i + 1 + n then b.lnkblk (x + 1) else b.lnkblk x } := by
  induction n generalizing i b with
  | zero =>
      cases b
      simp only [closeGap, Block.mk.injEq, true_and, and_true]
      constructor <;> funext x <;> exact (if_neg (by omega)).symm
  | succ n ih =>
      rw [closeGap, ih]
      simp only [Block.mk.injEq, true_and, and_true, Function.update_apply]
      constructor <;> funext x <;> push_cast <;> grind

theorem remky_shows (h : b.Shows (l ++ e :: r) (ll ++ c :: lr)) (hll : ll.length = l.length + 1)
    (hlr : lr.length = r.length) : (b.remky l.length).Shows (l ++ r) (ll ++ lr) := by
  have hn := h.nkeys
  have hkeys := Reads.append_iff.1 h.keys
  have hlinks := Reads.append_iff.1 h.links
  simp only [List.length_append, List.length_cons] at hn
  have hnat : (b.nkeys - 1 - (l.length : Int)).toNat = r.length := by omega
  simp only [zero_add, Reads.cons_iff, hll] at hkeys hlinks
  simp only [remky, closeGap_eq, hnat]
  refine ⟨?_,Reads.append_iff.2 ⟨?_,?_⟩,Reads.append_iff.2 ⟨?_,?_⟩⟩
  · simp only [List.length_append]
    omega
  · exact hkeys.1.congr fun j _ hj => if_neg (by omega)
  · refine hkeys.2.2.shift _ fun k hk => ?_
    dsimp only
    rw [if_pos (by omega)]
    congr 1
    omega
  · exact hlinks.1.congr fun j _ hj => if_neg (by omega)
  · refine hlinks.2.2.shift _ fun k hk => ?_
    dsimp only
    rw [if_pos (by omega)]
    congr 1
    omega

theorem remky_sameInfo (b : Block) (pos : Int) : b.SameInfo (b.remky pos) := by
  simp only [remky, closeGap_eq]
  exact ⟨rfl,rfl,rfl,rfl,rfl,rfl,rfl⟩

theorem repky_shows (h : b.Shows (l ++ e :: r) (ll ++ c :: d :: lr)) (hll : ll.length = l.length) :
    (b.repky l.length ke c d).Shows (l ++ ke :: r) (ll ++ c :: d :: lr) := by
  have hkeys := Reads.append_iff.1 h.keys
  have hlinks := Reads.append_iff.1 h.links
  simp only [zero_add, Reads.cons_iff, hll] at hkeys hlinks
  have hlnk : Function.update (Function.update b.lnkblk l.length c) (l.length + 1) d = b.lnkblk := by
    rw [← hlinks.2.1, Function.update_eq_self, ← hlinks.2.2.1, Function.update_eq_self]
  refine ⟨?_,?_,?_⟩
  · have hn := h.nkeys
    simp only [List.length_append, List.length_cons] at hn ⊢
    exact hn
  · refine Reads.append_iff.2 ⟨hkeys.1.update (by omega),?_⟩
    rw [zero_add, Reads.cons_iff]
    exact ⟨Function.update_self _ _ _,hkeys.2.2.update (by omega)⟩
  · simp only [repky, setKey, setLnk, hlnk]
    exact h.links

theorem repky_sameInfo (b : Block) (i : Int) (ke : KeyEnt) (c d : Int) : b.SameInfo (b.repky i ke c d) :=
  ⟨rfl,rfl,rfl,rfl,rfl,rfl,rfl⟩

theorem putky_last (h : b.Shows l ll) (hl : l ≠ []) (hll : ll.length = l.length + 1) (hd : 0 ≤ d) :
    (b.putky ke ZNULL d).Shows (l ++ [ke]) (ll ++ [d]) := by
  have hpos := List.length_pos_iff.2 hl
  have hn : b.nkeys ≠ 0 := by
    rw [h.nkeys]
    omega
  have hnat : b.nkeys.toNat = l.length := by
    rw [h.nkeys]
    rfl
  have hd' : d ≠ ZNULL := by
    change d ≠ -1
    omega
  have hput : b.putky ke ZNULL d =
      { (b.setKey l.length ke).setLnk (l.length + 1) d with nkeys := b.nkeys + 1 } := by
    simp [putky, placeKey, hn, hnat, hd', hl, hd]
  rw [hput]
  refine ⟨?_,Reads.append_iff.2 ⟨h.keys.update (by omega),?_⟩,Reads.append_iff.2 ⟨h.links.update (by omega),?_⟩⟩
  · rw [h.nkeys, List.length_append]
    rfl
  · rw [zero_add]
    exact ⟨Function.update_self _ _ _,trivial⟩
  · rw [zero_add, hll]
    exact ⟨Function.update_self _ _ _,trivial⟩

theorem putky_first (h : b.Shows r (d :: lr)) (hr : r ≠ []) (hlr : lr.length = r.length) (hc : 0 ≤ c)
    (hlt : ∀ e ∈ r, strcmp ke.key e.key ≤ 0) : (b.putky ke c ZNULL).Shows (ke :: r) (c :: d :: lr) := by
  have hpos := List.length_pos_iff.2 hr
  have hn : b.nkeys ≠ 0 := by
    rw [h.nkeys]
    omega
  have hnat : b.nkeys.toNat = r.length := by
    rw [h.nkeys]
    rfl
  have hc' : c ≠ ZNULL := by
    change c ≠ -1
    omega
  have hroom := makeRoom_shows (l := []) (r := r) h.keys (fun e he => absurd he List.not_mem_nil) hlt
  obtain ⟨-,hkr⟩ := openGap_keys (l := []) (r := r) h.keys
  obtain ⟨hll,hlr'⟩ := openGap_links (l := []) (show ([] : List Int).length = 0 from rfl) hlr h.links
  simp only [List.nil_append, List.length_nil] at hroom hkr hll hlr'
  have hgap : (b.openGap 0 r.length).nkeys = b.nkeys := rfl
  generalize b.openGap 0 r.length = g at hroom hkr hll hlr' hgap
  have hkeys : (b.putky ke c ZNULL).keyblk = Function.update g.keyblk 0 ke := by
    simp [putky, placeKey, setKey, setLnk, hn, hnat, hc', hroom]
  have hlinks : (b.putky ke c ZNULL).lnkblk = Function.update (Function.update g.lnkblk 1 (g.lnkblk 0)) 0 c := by
    simp [putky, placeKey, setKey, setLnk, hn, hnat, hc', hroom]
  refine ⟨?_,?_,?_⟩
  · have hnum : (b.putky ke c ZNULL).nkeys = b.nkeys + 1 := by
      simp [putky, hn, hnat, hc', hroom, hgap]
    rw [hnum, h.nkeys, List.length_cons, Nat.cast_succ]
  · rw [hkeys]
    exact ⟨Function.update_self _ _ _,hkr.update (by omega)⟩
  · rw [hlinks]
    refine ⟨Function.update_self _ _ _,?_,(hlr'.update (by omega)).update (by omega)⟩
    exact (Function.update_of_ne (by omega) _ _).trans ((Function.update_self _ _ _).trans hll.1)

theorem cpybk_whole (h : f.Shows r lr) (hlr : lr.length = r.length + 1) :
    { b.cpybk f 0 0 r.length with nkeys := (r.length : Int) }.Shows r lr := by
  obtain ⟨hk,hl⟩ := cpybk_front (t := b) h.keys h.links hlr
  exact ⟨rfl,hk,hl⟩

-- The block of a leaf, which may be empty.
def Bare (b : Block) (l : List KeyEnt) : Prop := b.Shows l (List.replicate (l.length + 1) ZNULL)

namespace Bare

theorem lnkblk (h : b.Bare l) {x : Int} (h0 : 0 ≤ x) (hx : x ≤ l.length) : b.lnkblk x = ZNULL := by
  have := h.links.get (k := x.toNat) (by rw [List.length_replicate]; omega)
  rw [zero_add, Int.toNat_of_nonneg h0, List.getElem_replicate] at this
  exact this

theorem of_lnkblk (hn : b.nkeys = l.length) (hk : Reads b.keyblk 0 l)
    (h : ∀ x : Int, 0 ≤ x → x ≤ l.length → b.lnkblk x = ZNULL) : b.Bare l := by
  refine ⟨hn,hk,Reads.of_get fun k hkl => ?_⟩
  rw [List.length_replicate] at hkl
  rw [List.getElem_replicate]
  exact h _ (by omega) (by omega)

theorem remky (h : b.Bare (l ++ e :: r)) : (b.remky l.length).Bare (l ++ r) := by
  have hsplit : List.replicate ((l ++ e :: r).length + 1) ZNULL =
      List.replicate (l.length + 1) ZNULL ++ ZNULL :: List.replicate r.length ZNULL := by
    rw [← List.replicate_succ, List.replicate_append_replicate]
    congr 1
    simp only [List.length_append, List.length_cons]
    omega
  have h' : b.Shows (l ++ e :: r) (List.replicate (l.length + 1) ZNULL ++ ZNULL :: List.replicate r.length ZNULL) := by
    rw [← hsplit]
    exact h
  have hrem := remky_shows h' (List.length_replicate ..) (List.length_replicate ..)
  rw [List.replicate_append_replicate] at hrem
  refine ⟨hrem.nkeys,hrem.keys,?_⟩
  have hlen : (l ++ r).length + 1 = l.length + 1 + r.length := by
    rw [List.length_append]
    omega
  rw [hlen]
  exact hrem.links

theorem putky (h : b.Bare (l ++ r)) (hl : ∀ e ∈ l, e.key < ke.key) (hr : ∀ e ∈ r, ke.key < e.key) :
    (b.putky ke ZNULL ZNULL).Bare (l ++ ke :: r) := by
  rcases eq_or_ne (l ++ r) [] with hnil | hne
  · obtain ⟨rfl,rfl⟩ := List.append_eq_nil_iff.1 hnil
    exact putky_empty h.nkeys ke ZNULL ZNULL
  · exact putky_leaf h hne (fun e he => strcmp_pos_iff.2 (hl e he)) fun e he => strcmp_nonpos_iff.2 (hr e he).le

theorem cpybk (h : b.Bare l) (hf : f.Bare r) (hl : l ≠ []) :
    { b.cpybk f l.length 0 r.length with nkeys := (l.length : Int) + r.length }.Bare (l ++ r) := by
  have hpos := List.length_pos_iff.2 hl
  simp only [Block.cpybk, copyKeys_eq, if_neg (by omega : ¬ (l.length : Int) = 0), setLnk]
  refine of_lnkblk ?_ (Reads.append_iff.2 ⟨?_,?_⟩) fun x h0 hx => ?_
  · simp only [List.length_append]
    omega
  · exact h.keys.congr fun j _ hj => if_neg (by omega)
  · refine hf.keys.shift _ fun k hk => ?_
    dsimp only
    rw [if_pos (by omega)]
    congr 1
    omega
  · rw [List.length_append] at hx
    dsimp only
    rw [Function.update_apply]
    split
    · exact hf.lnkblk (by omega) (by omega)
    · split
      · exact hf.lnkblk (by omega) (by omega)
      · exact h.lnkblk h0 (by omega)

end Bare

end Block

end Btlib
