import Btlib.Block
import Btlib.Theory.Reads
import Btlib.Theory.Zipper

namespace Btlib

namespace Block

-- What a block says as an index block: its keys, and the links on both sides of each of them.
structure Shows (b : Block) (es : List KeyEnt) (ls : List Int) : Prop where
  nkeys : b.nkeys = es.length
  keys : Reads b.keyblk 0 es
  links : Reads b.lnkblk 0 ls

-- The words of a block that the index leaves alone.
structure SameInfo (b b' : Block) : Prop where
  btype : b'.btype = b.btype
  btver : b'.btver = b.btver
  bthdr : b'.bthdr = b.bthdr
  misc : b'.misc = b.misc
  nxblk : b'.nxblk = b.nxblk
  nblks : b'.nblks = b.nblks
  nxdup : b'.nxdup = b.nxdup

theorem SameInfo.refl (b : Block) : b.SameInfo b := ⟨rfl,rfl,rfl,rfl,rfl,rfl,rfl⟩

theorem SameInfo.trans {a b c : Block} (h : a.SameInfo b) (h' : b.SameInfo c) : a.SameInfo c :=
  ⟨h'.btype.trans h.btype,h'.btver.trans h.btver,h'.bthdr.trans h.bthdr,h'.misc.trans h.misc,
    h'.nxblk.trans h.nxblk,h'.nblks.trans h.nblks,h'.nxdup.trans h.nxdup⟩

def openGap (i n : Nat) (b : Block) : Block :=
  { b with
    keyblk := fun j => if (i : Int) < j ∧ j ≤ n then b.keyblk (j - 1) else b.keyblk j,
    lnkblk := fun j => if (i : Int) + 1 < j ∧ j ≤ n + 1 then b.lnkblk (j - 1) else b.lnkblk j }

@[simp] theorem placeKey_nkeys (b : Block) (i : Nat) (ke : KeyEnt) (l1 l2 : Int) :
    (b.placeKey i ke l1 l2).nkeys = b.nkeys := by
  simp only [placeKey]
  repeat' split
  all_goals simp only [setKey, setLnk]

theorem makeRoom_eq {ke : KeyEnt} {b : Block} {i : Nat} (d : Nat)
    (hr : ∀ j : Nat, i ≤ j → j < i + d → strcmp ke.key (b.keyblk j).key ≤ 0)
    (hl : ∀ j : Nat, i = j + 1 → 0 < strcmp ke.key (b.keyblk j).key) :
    makeRoom ke (i + d) b = (i, b.openGap i (i + d)) := by
  induction d generalizing b with
  | zero =>
      have hgap : b.openGap i (i + 0) = b := by
        cases b
        simp only [openGap, Block.mk.injEq, true_and, and_true]
        constructor <;> funext j <;> exact if_neg (by omega)
      rw [hgap]
      cases i with
      | zero => rfl
      | succ i =>
          have h := hl i rfl
          simp only [makeRoom, if_neg (not_le.2 h)]
  | succ d ih =>
      have hd := hr (i + d) (by omega) (by omega)
      rw [show i + (d + 1) = (i + d) + 1 from rfl, makeRoom, if_pos hd, ih]
      · simp only [openGap, Prod.mk.injEq, Block.mk.injEq, true_and, and_true, Function.update_apply]
        constructor <;> funext j <;> push_cast <;> grind
      · intro j hj hj'
        have hne : Function.update b.keyblk ((i + d : Nat) + 1 : Int) (b.keyblk (i + d : Nat)) j =
            b.keyblk j := Function.update_of_ne (by omega) _ _
        simpa only [hne] using hr j hj (by omega)
      · intro j hj
        have hne : Function.update b.keyblk ((i + d : Nat) + 1 : Int) (b.keyblk (i + d : Nat)) j =
            b.keyblk j := Function.update_of_ne (by omega) _ _
        simpa only [hne] using hl j hj

section Put

variable {b : Block} {l r : List KeyEnt} {ll lr : List Int} {ke : KeyEnt} {c d : Int}

theorem makeRoom_shows (hk : Reads b.keyblk 0 (l ++ r))
    (hl : ∀ e ∈ l, 0 < strcmp ke.key e.key) (hr : ∀ e ∈ r, strcmp ke.key e.key ≤ 0) :
    makeRoom ke (l ++ r).length b = (l.length, b.openGap l.length (l ++ r).length) := by
  rw [List.length_append]
  refine makeRoom_eq _ (fun j hj hj' => ?_) fun j hj => ?_
  · have h := hk.get (k := j) (by simpa using hj')
    rw [zero_add] at h
    rw [h, List.getElem_append_right hj]
    exact hr _ (List.getElem_mem _)
  · have h := hk.get (k := j) (by simp only [List.length_append]; omega)
    rw [zero_add] at h
    rw [h, List.getElem_append_left (by omega)]
    exact hl _ (List.getElem_mem _)

theorem openGap_keys (hk : Reads b.keyblk 0 (l ++ r)) :
    Reads (b.openGap l.length (l ++ r).length).keyblk 0 l ∧
      Reads (b.openGap l.length (l ++ r).length).keyblk (l.length + 1) r := by
  rw [Reads.append_iff, zero_add] at hk
  simp only [openGap, List.length_append]
  constructor
  · refine hk.1.congr fun j hj hj' => if_neg ?_
    omega
  · refine hk.2.shift _ fun k hk => ?_
    rw [if_pos (by omega)]
    congr 1
    omega

theorem openGap_links (hlen : ll.length = l.length) (hlr : lr.length = r.length)
    (hk : Reads b.lnkblk 0 (ll ++ c :: lr)) :
    Reads (b.openGap l.length (l ++ r).length).lnkblk 0 (ll ++ [c]) ∧
      Reads (b.openGap l.length (l ++ r).length).lnkblk (l.length + 2) lr := by
  rw [show ll ++ c :: lr = (ll ++ [c]) ++ lr by simp, Reads.append_iff, zero_add] at hk
  simp only [List.length_append, List.length_singleton, hlen] at hk
  simp only [openGap, List.length_append]
  constructor
  · refine hk.1.congr fun j hj hj' => if_neg ?_
    simp only [List.length_append, List.length_singleton] at hj'
    omega
  · refine hk.2.shift _ fun k hk => ?_
    rw [if_pos (by omega)]
    congr 1
    omega

theorem setKey_keys {b : Block} (ke : KeyEnt) (hl : Reads b.keyblk 0 l) (hr : Reads b.keyblk (l.length + 1) r) :
    Reads (b.setKey l.length ke).keyblk 0 (l ++ ke :: r) := by
  rw [Reads.append_iff, zero_add, Reads.cons_iff]
  exact ⟨hl.update (by omega),Function.update_self _ _ _,hr.update (by omega)⟩

-- A key promoted from the block `c`, which was split into itself and `d`.
theorem putky_promote (h : b.Shows (l ++ r) (ll ++ c :: lr)) (hlen : ll.length = l.length)
    (hlr : lr.length = r.length) (hne : l ++ r ≠ []) (hc : 0 ≤ c) (hd : 0 ≤ d)
    (hl : ∀ e ∈ l, 0 < strcmp ke.key e.key) (hr : ∀ e ∈ r, strcmp ke.key e.key ≤ 0) :
    (b.putky ke c d).Shows (l ++ ke :: r) (ll ++ c :: d :: lr) := by
  have hn : b.nkeys ≠ 0 := by
    have := List.length_pos_iff.2 hne
    rw [h.nkeys]
    omega
  have hroom := makeRoom_shows h.keys hl hr
  obtain ⟨hkl,hkr⟩ := openGap_keys h.keys
  obtain ⟨hll,hlr'⟩ := openGap_links hlen hlr h.links
  have hnat : b.nkeys.toNat = (l ++ r).length := by rw [h.nkeys]; rfl
  have hc' : c ≠ ZNULL := by
    change c ≠ -1
    omega
  set g := b.openGap l.length (l ++ r).length
  have hput : b.putky ke c d = { g.placeKey l.length ke c d with nkeys := b.nkeys + 1 } := by
    simp only [putky, if_neg hn, hc', false_and, if_false, hnat, hroom, placeKey_nkeys]
    rfl
  have hplace : g.placeKey l.length ke c d =
      ((if l.length = 0 then (g.setLnk 1 (g.lnkblk 0)).setLnk 0 c else g).setLnk (l.length + 1)
        d).setKey l.length ke := by
    simp only [placeKey, hc', false_and, if_false, if_pos hd]
    split <;> simp only [setKey, setLnk]
  rw [hput, hplace]
  refine ⟨?_,?_,?_⟩
  · rw [h.nkeys]
    simp only [List.length_append, List.length_cons]
    push_cast
    omega
  · have hk := setKey_keys ke hkl hkr
    split <;> exact hk
  · rw [Reads.append_iff] at hll
    rw [Reads.append_iff, Reads.cons_iff, Reads.cons_iff, zero_add, hlen]
    simp only [hlen, zero_add, Reads.cons_iff] at hll
    split
    · rename_i h0
      obtain rfl := List.length_eq_zero_iff.1 (hlen.trans h0)
      refine ⟨trivial,?_,?_,?_⟩
      · simp [setKey, setLnk, h0]
      · simp [setKey, setLnk, h0]
      · refine (((hlr'.update ?_).update ?_).update ?_).congr fun _ _ _ => rfl <;> omega
    · refine ⟨(hll.1.update ?_),?_,?_,?_⟩
      · omega
      · exact (Function.update_of_ne (by omega) _ _).trans hll.2.1
      · exact Function.update_self _ _ _
      · rw [show (l.length : Int) + 1 + 1 = l.length + 2 by omega]
        exact hlr'.update (by omega)

@[simp] theorem setKey_nkeys (b : Block) (i : Int) (ke : KeyEnt) : (b.setKey i ke).nkeys = b.nkeys :=
  rfl

@[simp] theorem setLnk_nkeys (b : Block) (i l : Int) : (b.setLnk i l).nkeys = b.nkeys := rfl

theorem putky_empty {b : Block} (h : b.nkeys = 0) (ke : KeyEnt) (c d : Int) :
    (b.putky ke c d).Shows [ke] [c,d] := by
  simp only [putky, if_pos h]
  refine ⟨by simp [h],?_,?_⟩
  · simp [setKey, setLnk]
  · simp [setKey, setLnk]

theorem putky_leaf (h : b.Shows (l ++ r) (List.replicate ((l ++ r).length + 1) ZNULL))
    (hne : l ++ r ≠ []) (hl : ∀ e ∈ l, 0 < strcmp ke.key e.key)
    (hr : ∀ e ∈ r, strcmp ke.key e.key ≤ 0) :
    (b.putky ke ZNULL ZNULL).Shows (l ++ ke :: r)
      (List.replicate ((l ++ ke :: r).length + 1) ZNULL) := by
  obtain ⟨n,hn⟩ : ∃ n, (l ++ r).length = n := ⟨_,rfl⟩
  have hpos : 0 < n := hn ▸ List.length_pos_iff.2 hne
  have hn2 : (l ++ ke :: r).length + 1 = n + 2 := by
    simp only [List.length_append, List.length_cons] at hn ⊢
    omega
  rw [hn2]
  rw [hn] at h
  have hn' : b.nkeys ≠ 0 := by
    rw [h.nkeys]
    omega
  have hroom := makeRoom_shows h.keys hl hr
  obtain ⟨hkl,hkr⟩ := openGap_keys h.keys
  have hsplit : List.replicate (n + 1) ZNULL =
      List.replicate l.length ZNULL ++ ZNULL :: List.replicate r.length ZNULL := by
    rw [← List.replicate_succ, List.replicate_append_replicate, ← hn, List.length_append]
    rfl
  have hlinks := h.links
  rw [hsplit] at hlinks
  obtain ⟨hll,hlr'⟩ := openGap_links (List.length_replicate (n := l.length)) (List.length_replicate (n := r.length))
    hlinks
  have hnat : b.nkeys.toNat = (l ++ r).length := by rw [h.nkeys]; rfl
  set g := b.openGap l.length (l ++ r).length
  have hput : b.putky ke ZNULL ZNULL =
      { g.placeKey l.length ke ZNULL ZNULL with nkeys := b.nkeys + 1 } := by
    simp only [putky, if_neg hn', ne_eq, not_true_eq_false, and_false, if_false, hnat, hroom,
      placeKey_nkeys]
    rfl
  have hplace : g.placeKey l.length ke ZNULL ZNULL =
      (((if l.length = 0 then g.setLnk 1 (g.lnkblk 0) else g).setLnk l.length ZNULL).setLnk
        (l.length + 1) ZNULL).setKey l.length ke := by
    simp only [placeKey, and_self, if_true]
    split <;> simp only [setKey, setLnk]
  rw [hput, hplace]
  refine ⟨?_,?_,?_⟩
  · rw [h.nkeys]
    simp only [List.length_append, List.length_cons]
    push_cast
    omega
  · have hk := setKey_keys ke hkl hkr
    split <;> exact hk
  · have hrep : List.replicate (n + 2) ZNULL =
        List.replicate l.length ZNULL ++ ZNULL :: ZNULL :: List.replicate r.length ZNULL := by
      rw [List.replicate_succ', hsplit, List.append_assoc, List.cons_append,
        ← List.replicate_succ', List.replicate_succ]
    rw [Reads.append_iff, List.length_replicate] at hll
    rw [hrep, Reads.append_iff, List.length_replicate, Reads.cons_iff, Reads.cons_iff, zero_add]
    have hmid : ∀ f : Int → Int, Function.update (Function.update f (l.length : Int) ZNULL)
        (l.length + 1 : Int) ZNULL l.length = ZNULL := fun f => by
      rw [Function.update_of_ne (by omega), Function.update_self]
    split
    · rename_i h0
      refine ⟨?_,hmid _,Function.update_self _ _ _,?_⟩
      · simp [h0]
      · rw [show (l.length : Int) + 1 + 1 = l.length + 2 by omega]
        refine ((hlr'.update ?_).update ?_).update ?_ <;> omega
    · refine ⟨(hll.1.update ?_).update ?_,hmid _,Function.update_self _ _ _,?_⟩
      · simp
      · simp
      · rw [show (l.length : Int) + 1 + 1 = l.length + 2 by omega]
        refine (hlr'.update ?_).update ?_ <;> omega

end Put

section Copy

variable {b f t : Block} {l r : List KeyEnt} {ll lr : List Int}

theorem copyKeys_eq (f : Block) (inc : Int) (n : Nat) (i j : Int) (t : Block) :
    copyKeys f inc n i j t =
      { t with
        keyblk := fun x => if i ≤ x ∧ x < i + n then f.keyblk (x - i + j) else t.keyblk x,
        lnkblk := fun x =>
          if i + inc ≤ x ∧ x < i + inc + n then f.lnkblk (x - i - inc + j) else t.lnkblk x } := by
  induction n generalizing i j t with
  | zero =>
      cases t
      simp only [copyKeys, Block.mk.injEq, true_and, and_true]
      constructor <;> funext x <;> exact (if_neg (by omega)).symm
  | succ n ih =>
      rw [copyKeys, ih]
      simp only [setKey, setLnk, Block.mk.injEq, true_and, and_true, Function.update_apply]
      constructor
      · funext x
        rcases eq_or_ne x i with rfl | hne
        · rw [if_neg (by omega), if_pos rfl, if_pos (by omega)]
          congr 1
          omega
        · rw [if_neg hne]
          refine if_congr (by omega) (congrArg _ (by omega)) rfl
      · funext x
        rcases eq_or_ne x (i + inc) with rfl | hne
        · rw [if_neg (by omega), if_pos rfl, if_pos (by omega)]
          congr 1
          omega
        · rw [if_neg hne]
          refine if_congr (by omega) (congrArg _ (by omega)) rfl

theorem cpybk_front {fs : Int} (hk : Reads f.keyblk fs r) (hl : Reads f.lnkblk fs lr)
    (hlen : lr.length = r.length + 1) :
    Reads (t.cpybk f 0 fs r.length).keyblk 0 r ∧ Reads (t.cpybk f 0 fs r.length).lnkblk 0 lr := by
  obtain ⟨lr,c,rfl⟩ : ∃ lr' c, lr = lr' ++ [c] :=
    ⟨lr.dropLast,lr.getLast (by rintro rfl; simp at hlen),(List.dropLast_append_getLast _).symm⟩
  have hlen' : lr.length = r.length := by simpa using hlen
  rw [Reads.append_iff] at hl
  simp only [cpybk, copyKeys_eq, if_true, setLnk]
  refine ⟨hk.shift 0 fun k hk => ?_,Reads.append_iff.2 ⟨Reads.update (hl.1.shift 0 ?_) ?_,?_⟩⟩
  · rw [if_pos (by omega)]
    congr 1
    omega
  · intro k hk
    rw [if_pos (by omega)]
    congr 1
    omega
  · rw [hlen']
    omega
  · rw [hlen']
    refine ⟨?_,trivial⟩
    rw [Function.update_self, ← hlen']
    exact hl.2.1

theorem cpybk_sameInfo (t f : Block) (ts fs : Int) (n : Nat) :
    t.SameInfo (t.cpybk f ts fs n) ∧ (t.cpybk f ts fs n).nkeys = t.nkeys := by
  simp only [cpybk, copyKeys_eq, setLnk]
  exact ⟨⟨rfl,rfl,rfl,rfl,rfl,rfl,rfl⟩,trivial⟩

theorem Shows.truncate (h : b.Shows (l ++ r) (ll ++ lr)) {n : Int} (hn : n = l.length) :
    { b with nkeys := n }.Shows l ll :=
  ⟨hn,(Reads.append_iff.1 h.keys).1,(Reads.append_iff.1 h.links).1⟩

theorem repky_single (b : Block) (ke : KeyEnt) (c d : Int) :
    { b.repky 0 ke c d with nkeys := 1 }.Shows [ke] [c,d] := by
  refine ⟨rfl,?_,?_⟩ <;> simp [repky, setKey, setLnk]

end Copy

section Info

variable (b : Block)

theorem makeRoom_sameInfo (ke : KeyEnt) (n : Nat) : b.SameInfo (makeRoom ke n b).2 := by
  induction n generalizing b with
  | zero => exact SameInfo.refl b
  | succ n ih =>
      rw [makeRoom]
      split
      · have h := ih { b with
          keyblk := Function.update b.keyblk (n + 1 : Int) (b.keyblk n),
          lnkblk := Function.update b.lnkblk (n + 2 : Int) (b.lnkblk (n + 1 : Int)) }
        exact ⟨h.btype,h.btver,h.bthdr,h.misc,h.nxblk,h.nblks,h.nxdup⟩
      · exact SameInfo.refl b

theorem placeKey_sameInfo (i : Nat) (ke : KeyEnt) (c d : Int) : b.SameInfo (b.placeKey i ke c d) := by
  simp only [placeKey]
  constructor
  all_goals
    repeat' split
  all_goals simp only [setKey, setLnk]

theorem putky_sameInfo (ke : KeyEnt) (c d : Int) : b.SameInfo (b.putky ke c d) := by
  simp only [putky]
  split
  · exact ⟨rfl,rfl,rfl,rfl,rfl,rfl,rfl⟩
  · split
    · exact (b.placeKey_sameInfo _ ke c d).trans ⟨rfl,rfl,rfl,rfl,rfl,rfl,rfl⟩
    · exact ((b.makeRoom_sameInfo ke _).trans (placeKey_sameInfo _ _ ke c d)).trans
        ⟨rfl,rfl,rfl,rfl,rfl,rfl,rfl⟩

end Info

end Block

end Btlib
