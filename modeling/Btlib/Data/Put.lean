import Btlib.Data.Insert

namespace Btlib

open DoubleLinks

variable [Build] {s s' : St} {fs fs' D os : List Int} {ps rs : List Seg} {p : Seg} {a b c : Int} {data : List Byte}
  {E : Op → Disk → Prop} {k n : Nat}

-- The bytes of a record.
def content (ps : List Seg) : List Byte := ps.flatMap Seg.bytes

omit [Build] in
@[simp] theorem content_nil : content [] = [] := rfl

omit [Build] in
@[simp] theorem content_cons : content (p :: ps) = p.bytes ++ content ps := List.flatMap_cons

omit [Build] in
theorem content_append : content (ps ++ rs) = content ps ++ content rs := List.flatMap_append

-- Segments that all hold bytes, and those of which all but the first must.
def Solid (ps : List Seg) : Prop := ∀ p ∈ ps, p.bytes ≠ []

def Tight (ps : List Seg) : Prop := Solid ps.tail

omit [Build] in
theorem Tight.length_le (h : Tight ps) : ps.length ≤ (content ps).length + 1 := by
  cases ps with
  | nil => exact Nat.zero_le _
  | cons p ps =>
      have hsolid : Solid ps := h
      have hle : ps.length ≤ (content ps).length := by
        clear h
        induction ps with
        | nil => exact le_rfl
        | cons q ps ih =>
            have hq := List.length_pos_iff.2 (hsolid q List.mem_cons_self)
            have hrest := ih fun p hp => hsolid p (List.mem_cons_of_mem _ hp)
            rw [content_cons, List.length_append, List.length_cons]
            omega
      rw [content_cons, List.length_append, List.length_cons]
      omega

omit [Build] in
theorem slice_eq (l : List Byte) (hk : k + n ≤ l.length) : slice l (k : Int) n = (l.drop k).take n := by
  have hslice : slice l k n = (List.range n).map fun j : Nat => l.getD (k + j) 0 := by
    simp only [slice, List.bind_eq_flatMap, List.pure_def]
    rw [← List.map_eq_flatMap, List.map_map]
    refine List.map_congr_left fun j _ => ?_
    have hj : ((k : Int) + (j : Int)).toNat = k + j := by omega
    simp only [Function.comp_apply, hj]
  rw [hslice]
  refine List.ext_getElem (by simp; omega) fun i hi hi' => ?_
  have hin : i < n := by simpa using hi
  rw [List.getElem_map, List.getElem_range, List.getElem_take, List.getElem_drop, List.getD_eq_getElem _ _ (by omega)]

theorem sizeofDKey_ge : 32 ≤ sizeofDKey := by
  have hk : ZKYLEN = 32 := rfl
  unfold sizeofDKey
  omega

namespace Stored

-- The segment `l` is put before those that are there, in a block with room for it.
theorem insdat_chain (hz : SizedData) (h : Stored s fs D os (rs ++ ps)) (hc : Seg.Chain s rs) (hD : a ∈ D) (l : List Byte)
    (hroom : (s.disk.block a).nkeys + (ZDOVRH + l.length : Nat) ≤ ZDATSZ) :
    ∃ s' p, exec (Btlib.insdat a l (headAddr rs)) s = .done ((s.disk.block a).nkeys, s') ∧
      mkdraddr a (s.disk.block a).nkeys = p.addr ∧ (s.disk.block a).nkeys ≠ ZNULL ∧ p.bytes = l ∧
      Stored s' fs D os (p :: rs ++ ps) ∧ Seg.Chain s' (p :: rs) ∧ Spared s s' ps ∧ Aside s s' os ∧
      (s'.disk.block a).nblks = (s.disk.block a).nblks := by
  obtain ⟨s',p,hex,hblk,hoff,hbytes,h',hat,hsp,hbe⟩ := h.insdat hD l (headAddr rs) hroom
  have haddr := h'.mkdraddr_addr hz List.mem_cons_self
  rw [hblk, hoff] at haddr
  refine ⟨s',p,hex,haddr,?_,hbytes,h',⟨hat,hc.spared (hsp.subset fun q hq => List.mem_append_left _ hq)⟩,
    hsp.subset fun q hq => List.mem_append_right _ hq,hbe,?_⟩
  · rw [← hoff]
    have := Int.natCast_nonneg p.off
    change _ ≠ -1
    omega
  · rw [exec_insdat (h.has hD)] at hex
    injection hex with hex
    rw [← (Prod.mk.inj hex).2]
    simp only [Disk.block_put, Function.update_self]
    rfl

-- Induction on the turns: `k` bytes are still to be stored, and `rs` holds those behind them.
theorem ends_binsdtLoop (hz : SizedData) (hE : ∀ o d, NoBlock o d → E o d) (h : Stored s fs D os (rs ++ ps))
    (hc : Seg.Chain s rs) (hD : a ∈ D) (hna : (s.disk.block a).nblks = ZNULL) (hk : k ≤ data.length)
    (hn : 2 * k + 2 ≤ n ∨ 2 * k + 1 ≤ n ∧ (s.disk.block a).nkeys = 0) :
    (exec (binsdtLoop ZDATA data ZDSGMN n a k k (headAddr rs)) s).Ends E fun r => ∃ q qs fs' D',
      r.1 = q.addr ∧ Stored r.2 fs' D' os (q :: qs ++ rs ++ ps) ∧ Seg.Chain r.2 (q :: qs ++ rs) ∧
      content (q :: qs) = data.take k ∧ (0 < k → Solid (q :: qs)) ∧ Tight (q :: qs) ∧ Spared s r.2 ps ∧
      Aside s r.2 os := by
  induction n generalizing s fs D a k rs with
  | zero => omega
  | succ n ih =>
      have hmin : ZDSGMN = 7 := rfl
      have hdata := h.block a hD
      have hlow : 0 ≤ (s.disk.block a).nkeys := le_trans (Int.natCast_nonneg _) hdata.taken
      simp only [binsdtLoop, exec_bind, exec_bgtinf (h.has hD), Prog.Outcome.bind_done, Block.getInf_ZNKEYS, exec_ite]
      split
      · -- the rest fits
        rename_i hfit
        have hlen : (data.take k).length = k := by rw [List.length_take]; omega
        obtain ⟨s',p,hex,haddr,hne,hbytes,h',hc',hsp,hbe,-⟩ := h.insdat_chain hz hc hD (data.take k) (by
          rw [hlen]
          push_cast
          omega)
        have hslice : slice data ((k : Int) - k) (k : Int).toNat = data.take k := by
          have := slice_eq (k := 0) (n := k) data (by omega)
          rw [sub_self, Int.toNat_natCast]
          exact_mod_cast this
        rw [hslice, hex]
        simp only [Prog.Outcome.bind_done, if_neg hne, exec_pure, Prog.Outcome.ends_done, haddr]
        refine ⟨p,[],fs,D,rfl,h',hc',?_,fun h0 => ?_,fun q hq => absurd hq List.not_mem_nil,hsp,hbe⟩
        · rw [content_cons, content_nil, List.append_nil, hbytes]
        · intro q hq
          obtain rfl := List.mem_singleton.1 hq
          rw [hbytes]
          exact List.ne_nil_of_length_pos (by omega)
      · rename_i hfit
        split
        · -- a new block
          rename_i hfull
          have hno : ¬ (s.disk.block a).nkeys = 0 := fun h0 => by
            have hent := hz.entry
            have hsz : entSz = ZDOVRH + sizeofDKey := rfl
            have hkey := sizeofDKey_ge
            rw [h0] at hfull
            omega
          have hn := hn.resolve_right fun h0 => hno h0.2
          refine (h.ends_mkdblk hz hE).bind fun r hr => ?_
          obtain ⟨fs',h1,hbe1,hbD,hsp1,hb0,hbx,hbb,hold,-⟩ := hr
          obtain ⟨b,s1⟩ := r
          dsimp only at h1 hbe1 hbD hsp1 hb0 hbx hbb hold ⊢
          have hmem : b ∈ b :: D := List.mem_cons_self
          have haD : a ∈ b :: D := List.mem_cons_of_mem _ hD
          have hab : a ≠ b := fun hab => hbD (hab ▸ hD)
          have hna1 : (s1.disk.block a).nblks = ZNULL := by rw [hold a hD, hna]
          rw [if_neg (h1.ne_null hmem)]
          obtain ⟨h2,hsp2,hbe2,hn2,hb2⟩ := h1.pushHead hmem haD hab hbx hbb hna1 rfl rfl
          have hputa : (s1.disk.put b ((s1.disk.block b).setInf .ZNXBLK a)).block a = s1.disk.block a := by
            rw [Disk.block_put, Function.update_of_ne hab]
          have hputr : ((s1.disk.put b ((s1.disk.block b).setInf .ZNXBLK a)).put a
              ((s1.disk.block a).setInf .ZNBLKS b)).block s1.ctx.super.scroot = s1.disk.block s1.ctx.super.scroot := by
            rw [Disk.block_put, Function.update_of_ne (h1.ne_root haD).symm, Disk.block_put,
              Function.update_of_ne (h1.ne_root hmem).symm]
          have hstep1 : exec (bstinf b .ZNXBLK a) s1 =
              .done ((), ⟨s1.ctx,s1.disk.put b ((s1.disk.block b).setInf .ZNXBLK a)⟩) := exec_bstinf (h1.has hmem) _ _
          have hstep2 : exec (bstinf a .ZNBLKS b) ⟨s1.ctx,s1.disk.put b ((s1.disk.block b).setInf .ZNXBLK a)⟩ =
              .done ((), ⟨s1.ctx,(s1.disk.put b ((s1.disk.block b).setInf .ZNXBLK a)).put a
                ((s1.disk.block a).setInf .ZNBLKS b)⟩) := by
            rw [exec_bstinf (by exact h1.has haD), hputa]
          have hstep3 : exec (bstinf s1.ctx.super.scroot (listInf ZDATA) b) ⟨s1.ctx,(s1.disk.put b
              ((s1.disk.block b).setInf .ZNXBLK a)).put a ((s1.disk.block a).setInf .ZNBLKS b)⟩ =
              .done ((), ⟨s1.ctx,((s1.disk.put b ((s1.disk.block b).setInf .ZNXBLK a)).put a
                ((s1.disk.block a).setInf .ZNBLKS b)).put s1.ctx.super.scroot
                  ((s1.disk.block s1.ctx.super.scroot).setInf .ZNXBLK b)⟩) := by
            rw [exec_bstinf (by exact h1.has_root), hputr]
            rfl
          simp only [hstep1, exec_get, Prog.Outcome.bind_done, hstep2, hstep3]
          have hsp := hsp1.trans hsp2
          refine (ih h2 (hc.spared (hsp.subset fun q hq => List.mem_append_left _ hq)) hmem hb2 hk
            (Or.inr ⟨by omega,hn2.trans hb0⟩)).mono (fun _ _ h => h) fun r hr => ?_
          obtain ⟨q,qs,fs2,D2,hr1,h3,hc3,hcont,hsol,htight,hsp3,hbe3⟩ := hr
          exact ⟨q,qs,fs2,D2,hr1,h3,hc3,hcont,hsol,htight,
            (hsp.subset fun q hq => List.mem_append_right _ hq).trans hsp3,(hbe1.trans hbe2).trans hbe3⟩
        · -- what fits of the rest
          rename_i hfull
          obtain ⟨m,hm⟩ : ∃ m : Nat, (m : Int) = ZDATSZ - (s.disk.block a).nkeys - ZDOVRH :=
            ⟨(ZDATSZ - (s.disk.block a).nkeys - ZDOVRH : Int).toNat,by omega⟩
          have hmk : m < k := by omega
          have hm0 : 0 < m := by omega
          have hlen : ((data.drop (k - m)).take m).length = m := by
            rw [List.length_take, List.length_drop]
            omega
          obtain ⟨s1,p,hex,haddr,hne,hbytes,h1,hc1,hsp1,hbe1,hnb1⟩ := h.insdat_chain hz hc hD
            ((data.drop (k - m)).take m) (by
              rw [hlen]
              push_cast
              omega)
          have hslice : slice data ((k : Int) - m) (m : Int).toNat = (data.drop (k - m)).take m := by
            have := slice_eq (k := k - m) (n := m) data (by omega)
            rw [Int.toNat_natCast, ← this]
            congr 1
            omega
          have hk' : (k : Int) - m = ((k - m : Nat) : Int) := by omega
          rw [← hm, hslice, hex, hk']
          simp only [Prog.Outcome.bind_done, haddr]
          have hnext := ih (k := k - m) h1 hc1 hD (hnb1.trans hna) (by omega) (Or.inl (by omega))
          refine hnext.mono (fun _ _ h => h) fun r hr => ?_
          obtain ⟨q,qs,fs2,D2,hr1,h2,hc2,hcont,hsol,htight,hsp2,hbe2⟩ := hr
          have happ : q :: qs ++ p :: rs = q :: (qs ++ [p]) ++ rs := by simp
          rw [happ] at h2 hc2
          have hsolid : Solid (q :: (qs ++ [p])) := by
            intro q' hq'
            rw [← List.cons_append] at hq'
            rcases List.mem_append.1 hq' with hq' | hq'
            · exact hsol (by omega) q' hq'
            · obtain rfl := List.mem_singleton.1 hq'
              rw [hbytes]
              exact List.ne_nil_of_length_pos (by omega)
          refine ⟨q,qs ++ [p],fs2,D2,hr1,h2,hc2,?_,fun _ => hsolid,fun q' hq' => hsolid q' (List.mem_cons_of_mem _ hq'),
            hsp1.trans hsp2,hbe1.trans hbe2⟩
          have htake : data.take k = data.take (k - m) ++ (data.drop (k - m)).take m := by
            rw [← List.take_add]
            congr 1
            omega
          have hsingle : content [p] = (data.drop (k - m)).take m := by
            rw [content_cons, content_nil, List.append_nil, hbytes]
          rw [htake, ← hcont, ← List.cons_append, content_append, hsingle]

theorem ends_binsdt (hz : SizedData) (hE : ∀ o d, NoBlock o d → E o d) (h : Stored s fs D os ps)
    (data : List Byte) (hf : 2 * data.length + 2 ≤ FUEL) :
    (exec (binsdt ZDATA data) s).Ends E fun r => ∃ q qs fs' D', r.1 = q.addr ∧ Stored r.2 fs' D' os (q :: qs ++ ps) ∧
      Seg.Chain r.2 (q :: qs) ∧ content (q :: qs) = data ∧ (data ≠ [] → Solid (q :: qs)) ∧ Tight (q :: qs) ∧
      Spared s r.2 ps ∧ Aside s r.2 os := by
  have hroot := h.has_root
  have hlist : (s.disk.block s.ctx.super.scroot).getInf (listInf ZDATA) = (s.disk.block s.ctx.super.scroot).nxblk := rfl
  have hzero : headAddr [] = 0 := rfl
  simp only [binsdt, exec_bind, exec_get, Prog.Outcome.bind_done, exec_bgtinf hroot, hlist, exec_ite]
  rcases h.head with hnull | ⟨hD,hna⟩
  · rw [if_pos hnull]
    refine (h.ends_mkdblk hz hE).bind fun r hr => ?_
    obtain ⟨fs',h1,hbe1,hbD,hsp1,hb0,hbx,hbb,-,-⟩ := hr
    obtain ⟨b,s1⟩ := r
    dsimp only at h1 hbe1 hbD hsp1 hb0 hbx hbb ⊢
    have hmem : b ∈ b :: D := List.mem_cons_self
    obtain ⟨h2,hsp2,hbe2⟩ := h1.setHead hmem hbb rfl
    have hstep : exec (bstinf s.ctx.super.scroot (listInf ZDATA) b) s1 = .done ((), ⟨s1.ctx,s1.disk.put s1.ctx.super.scroot
        ((s1.disk.block s1.ctx.super.scroot).setInf .ZNXBLK b)⟩) := by
      rw [← hbe1.root, exec_bstinf h1.has_root]
      rfl
    have htype := (h2.block b hmem).type
    have hleast := (h2.block b hmem).least
    have hnb : ((s1.disk.put s1.ctx.super.scroot ((s1.disk.block s1.ctx.super.scroot).setInf .ZNXBLK b)).block b).nblks =
        ZNULL := by rw [Disk.block_put, Function.update_of_ne (h1.ne_root hmem), hbb]
    dsimp only at htype hleast
    rw [if_neg (h1.ne_null hmem), if_pos hnull, hstep]
    simp only [Prog.Outcome.bind_done, exec_bgtinf (h2.has hmem), Block.getInf_ZBTYPE, htype, ne_eq, not_true_eq_false,
      if_false, Block.getInf_ZNXDUP, hleast]
    have h2' : Stored _ fs' (b :: D) os ([] ++ ps) := h2
    have hloop := ends_binsdtLoop hz hE h2' trivial hmem hnb (le_refl data.length) (Or.inl hf)
    rw [hzero] at hloop
    refine hloop.mono (fun _ _ h => h) fun r hr => ?_
    obtain ⟨q,qs,fs2,D2,hr1,h3,hc3,hcont,hsol,htight,hsp3,hbe3⟩ := hr
    rw [List.append_nil] at h3 hc3
    rw [List.take_length] at hcont
    exact ⟨q,qs,fs2,D2,hr1,h3,hc3,hcont,fun h0 => hsol (List.length_pos_iff.2 h0),htight,
      (hsp1.trans hsp2).trans hsp3,(hbe1.trans hbe2).trans hbe3⟩
  · have hne := h.ne_null hD
    have hdata := h.block _ hD
    rw [if_neg hne]
    simp only [exec_pure, Prog.Outcome.bind_done, if_neg hne, exec_bgtinf (h.has hD), Block.getInf_ZBTYPE, hdata.type,
      ne_eq, not_true_eq_false, if_false, Block.getInf_ZNXDUP, hdata.least]
    have h0 : Stored s fs D os ([] ++ ps) := h
    have hloop := ends_binsdtLoop hz hE h0 trivial hD hna (le_refl data.length) (Or.inl hf)
    rw [hzero] at hloop
    refine hloop.mono (fun _ _ h => h) fun r hr => ?_
    obtain ⟨q,qs,fs2,D2,hr1,h3,hc3,hcont,hsol,htight,hsp3,hbe3⟩ := hr
    rw [List.append_nil] at h3 hc3
    rw [List.take_length] at hcont
    exact ⟨q,qs,fs2,D2,hr1,h3,hc3,hcont,fun h0 => hsol (List.length_pos_iff.2 h0),htight,hsp3,hbe3⟩

end Stored

end Btlib
