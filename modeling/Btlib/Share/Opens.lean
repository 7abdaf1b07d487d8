import Btlib.Share.Turn

namespace Btlib

open Prog

section Roots

variable [Build] {l : Int}

theorem ignoresLock_btchgr (hl : 0 < l) (root : Key) : IgnoresLock False l (btchgr root) := by
  refine .api (.bind (.locked hl ?_ _ _) fun _ => ignoresLock_btgerr) _ _
  with_reducible repeat' first
    | exact ignoresLock_bfndky hl _
    | refine .get (fun _ => ?_) fun _ _ => rfl
    | refine .bind ?_ fun _ => ?_
    | refine .ite ?_ ?_
  all_goals first | exact .setSuper _ | simp

end Roots

section Again

variable [Build] {c : Ctx} {k : Cache} {m : Prog.Machine Op Res Cache} {B : Finset Int}

theorem ends_brdsup_again (hm : Cache.Mirrored m) (hslots : 3 ≤ ZMXBLK) (h : BetweenCalls c k) (hk : k.Keeps B none)
    (hB : B.card ≤ 1) (herr : c.err.qerror = 0) (hz : k.file.Has ZSUPER)
    (hsup : ∀ d, k.Shows d → (d.block ZSUPER).btype = ZROOT ∧ (d.block ZSUPER).getInf .ZBTVER = ZVERS ∧
      (d.block ZSUPER).misc ≠ LFSHDR ∧ c.reads (d.block ZSUPER) = c) :
    ((brdsup c).run m k).Ends (fun o k' => k'.Parts o ∧ ∀ d, k'.Shows d → plain o d ≠ none) fun r =>
      r.1 = (0, c) ∧ (BetweenCalls c r.2 ∧ ∃ B' ⊆ B, r.2.Keeps B' none) ∧ ∀ d, r.2.Shows d → k.Shows d := by
  have hmod := MarksKept.slotSafe (marksKept_brdsup Nat.two_pos) c B h.shared fun _ => by omega
  have hret := (h.fits hk none).retraces hm hmod (looks_brdsup c _ rfl).told
  have hends := hret.ends (F := fun _ _ => False) (P := fun r => r.1 = (0, c) ∧ k.Shows r.2) fun d hd => ?_
  · refine hends.mono (fun o k' he => ⟨he.1,fun d hd hn => he.2 d hd hn⟩) ?_
    rintro ⟨⟨code,c'⟩,k'⟩ ⟨⟨t,ht,⟨-,hfew⟩,⟨hcount,hlen⟩,htold⟩,hp⟩
    obtain ⟨hr,-⟩ := hp _ k'.shows_view
    obtain ⟨rfl,rfl⟩ := Prod.mk.inj hr
    have hlone : Lone c' t.2 := .of_none h.shared (h.size.trans hlen.symm) hcount htold
    exact ⟨rfl,⟨ht.betweenCalls hlone ((Finset.card_le_card (hfew trivial)).trans hB),_,hfew trivial,ht.keeps.forget⟩,
      fun d hd => (hp d hd).2⟩
  · obtain ⟨htype,hver,hmisc,hreads⟩ := hsup d hd
    have hzd : d.Has ZSUPER := ⟨hz.1,hd.size ▸ hz.2⟩
    rw [run_of_exec (exec_brdsup_reads (s := ⟨c,d⟩) hzd htype hver hmisc), hreads, herr]
    exact ⟨rfl,hd⟩

end Again

section Opens

variable [Build] {c : Ctx} {k : Cache} {f : Disk} {D : Int} {rest : List Int} {μ : Map} {names keys : Nat}

theorem SavedAt.filed (h : SavedAt f D rest μ names keys) :
    ∃ os, Filed f D (os ++ rest) μ keys ∧ ∀ b ∈ rest, b ≠ ZSUPER := by
  obtain ⟨hver,n,m,t,u,fs,-,hkeys,hD,hall⟩ := h
  have hcat := (hall St.fresh.ctx).1
  have hfiled : Filed f D (t.ids ++ rest) μ keys := by
    refine ⟨hver,(hcat.index.kind ZSUPER hcat.link_mem).trans (if_pos rfl),List.mem_append_left _ hcat.link_mem,
      fun c ho hs hm hc => ⟨⟨ho,hs,hm⟩,m,u,fs,?_,hkeys⟩⟩
    exact (hall c).2.asIs ⟨hc.trans hD.symm,rfl,rfl,rfl,fun _ _ _ => rfl⟩
  have hroot := hfiled.root { St.fresh.ctx with super.scroot := D } rfl rfl rfl rfl
  exact ⟨t.ids,hfiled,fun b hb hbz => (List.nodup_append.1 hroot.nodup_os).2.2 ZSUPER hcat.link_mem b hb hbz.symm⟩

-- `btopn` of a shared handle asks for the lock while its root is the superroot.
theorem run_btopn_shared (mode : Int) : (btopn mode true c).run Cache.alone k =
    ((refresh ZSUPER (c.entering.withLock 0)).run Cache.alone { k.initcntrl with turn := k.turn + 1 }).bind fun r =>
      (btopnEntered mode { r.1.2 with lckcnt := 1 }).run Cache.alone r.2 := by
  have hopen : (btopn mode true c).run Cache.alone k = ((do
      let ok ← block
      if ¬ ok then
        bterr "BTOPN" QBUSY .none
        btopnFail
      else btopnEntered mode : BT Int) (c.entering.withLock 0)).run Cache.alone k.initcntrl := rfl
  have hnull : c.entering.super.scroot ≠ ZNULL := by
    change (0 : Int) ≠ ZNULL
    decide
  have hblock := run_block (k := k.initcntrl) hnull
  rw [show c.entering.super.scroot = ZSUPER from rfl] at hblock
  rw [hopen, BT.run_bind, hblock, Prog.Outcome.bind_assoc]
  rfl

theorem run_btopnFound_shared (mode : Int) (herr : c.err.qerror = 0) :
    (btopnFound mode (c.withLock 1)).run Cache.alone k =
      ((btsync ({ c with super.smode := mode }.withLock 1)).run Cache.alone k).bind fun r =>
        .done ((r.1.2.err.qerror, { r.1.2 with lckcnt := 0 }), r.2) := by
  have hfound : btopnFound mode (c.withLock 1) = (do leave; btgerr : BT Int) ({ c with super.smode := mode }.withLock 1) := by
    change (if c.err.qerror ≠ 0 then btopnFail else (do leave; btgerr : BT Int)) ({ c with super.smode := mode }.withLock 1) = _
    rw [if_neg (not_not.2 herr)]
  rw [hfound, run_leave_shared]
  rfl

theorem ends_refresh_super {m : Prog.Machine Op Res Cache} (hm : Cache.Mirrored m) (hslots : 3 ≤ ZMXBLK)
    (hpos : 0 ≤ k.file.size) (hlab : k.labelled < ZMXBLK) (hs : c.shared = false) (herr : c.err.qerror = 0)
    (hz : k.file.Has ZSUPER) (htype : (k.file.block ZSUPER).btype = ZROOT)
    (hver : (k.file.block ZSUPER).getInf .ZBTVER = ZVERS) (hmisc : (k.file.block ZSUPER).misc ≠ LFSHDR)
    (hsize : (k.file.block ZSUPER).nblks = k.file.size) :
    ((refresh ZSUPER c).run m k.initcntrl).Ends (fun o k' => k'.Parts o ∧ ∀ d, k'.Shows d → plain o d ≠ none) fun r =>
      r.1.2 = c.reads (k.file.block ZSUPER) ∧ (BetweenCalls r.1.2 r.2 ∧ ∃ B ⊆ {ZSUPER}, r.2.Keeps B none) ∧
        ∀ d, r.2.Shows d → k.initcntrl.Shows d := by
  have hsup := ends_brdsup hm hslots hpos hlab hs herr hz htype hver hmisc hsize
  unfold refresh
  rw [BT.run_bind]
  refine hsup.bind ?_
  rintro ⟨⟨_,_⟩,k1⟩ ⟨hr,⟨hbetween,hfree⟩,hback⟩
  obtain ⟨rfl,rfl⟩ := Prod.mk.inj hr
  have hsize1 : k1.file.size = k.file.size := (hback _ k1.shows_view).1.size
  refine (ends_markRoot hm (by omega) hbetween hfree ⟨hz.1,hsize1 ▸ hz.2⟩).mono (fun _ _ he => he) ?_
  rintro ⟨⟨_,_⟩,k2⟩ ⟨rfl,hbetween2,hback2⟩
  exact ⟨rfl,hbetween2,fun d hd => (hback d (hback2 d hd)).1⟩

theorem ends_btopn_shared (hcap : 3 ≤ ZMXKEY) (hslots : 3 ≤ ZMXBLK) (h : SavedAt k.file D rest μ names keys)
    (hmisc : (k.file.block ZSUPER).misc ≠ LFSHDR) (hlab : k.labelled < ZMXBLK) (hfuel : 2 * names + 3 ≤ FUEL) :
    ((btopn 0 true c).run Cache.alone k).Ends Stops fun r =>
      r.1.1 = 0 ∧ Vacant D r.1.2 r.2 ∧ SavedAt r.2.file D rest μ names keys ∧
        ∀ b ∈ rest, r.2.file.block b = k.file.block b := by
  obtain ⟨hver,n,m,t,u,fs,hlen,hkeys,rfl,hall⟩ := h
  obtain ⟨hcat,hplain⟩ := hall c.entering
  have hz := hcat.has
  have htype : (k.file.block ZSUPER).btype = ZROOT := (hcat.index.kind ZSUPER hcat.link_mem).trans (if_pos rfl)
  rw [run_btopn_shared]
  -- the lock, and the superroot with it
  have hin := ends_refresh_super (c := c.entering) (k := { k with turn := k.turn + 1 }) Cache.mirrors_alone hslots
    hcat.index.store.size_nonneg hlab rfl rfl hz htype hver hmisc hcat.index.store.size
  have hin := ((ignoresLock_refresh (p := False) (l := 0) ZSUPER).alike 0 le_rfl (c.entering.withLock 0) c.entering
    ⟨rfl,False.elim,rfl⟩).ends Cache.alone _ hin
  refine (hin.mono (fun o k' he => ⟨he.1,fun d hd hn => absurd hn (he.2 d hd)⟩) fun r hr => hr).bind ?_
  rintro ⟨⟨_,c0⟩,k1⟩ ⟨⟨_,c1⟩,⟨-,-,-,hc0⟩,hc1,⟨hbetween,B,hB,hk1⟩,hback⟩
  obtain rfl : c0 = c1.withLock 0 := hc0
  obtain rfl : c1 = c.entering.reads (k.file.block ZSUPER) := hc1
  have hlike : ∀ os d, k1.Shows d → AsIs ⟨c.entering.reads (k.file.block ZSUPER),k.file⟩
      ⟨c.entering.reads (k.file.block ZSUPER),d⟩ os := fun os d hd => by
    have hd := Cache.shows_initcntrl (k := { k with turn := k.turn + 1 }) (hback d hd)
    exact ⟨rfl,rfl,rfl,hd.1,fun b _ hb => hd.2 b hb⟩
  have hsame : ∀ d, k1.Shows d → ∀ b, k.file.Has b → d.block b = k.file.block b := fun d hd b hb =>
    (hlike [] d hd).block b List.not_mem_nil hb
  have hz1 : k1.file.Has ZSUPER := ⟨hz.1,(hlike [] _ k1.shows_view).size ▸ hz.2⟩
  -- the superroot once more, and the name of the root
  have hsup := ends_brdsup_again Cache.mirrors_alone hslots hbetween hk1
    ((Finset.card_le_card hB).trans (Finset.card_singleton ZSUPER).le) rfl hz1 fun d hd => by
      rw [hsame d hd ZSUPER hz]
      exact ⟨htype,hver,hmisc,rfl⟩
  have hsup := ((ignoresLock_brdsup (p := False) (l := 1)).alike 1 le_rfl
    ((c.entering.reads (k.file.block ZSUPER)).withLock 1) _ ⟨rfl,False.elim,rfl⟩).ends Cache.alone _ hsup
  unfold btopnEntered
  rw [BT.run_bind]
  refine (hsup.mono (fun o k' he => ⟨he.1,fun d hd hn => absurd hn (he.2 d hd)⟩) fun r hr => hr).bind ?_
  rintro ⟨⟨code,c0⟩,k2⟩ ⟨⟨_,c1⟩,⟨rfl,-,-,hc0⟩,hc1,⟨hbetween2,B2,hB2,hk2⟩,hback2⟩
  obtain rfl : c0 = c1.withLock 1 := hc0
  obtain ⟨rfl,rfl⟩ := Prod.mk.inj hc1
  simp only [ne_eq, not_true_eq_false, if_false]
  unfold btopnRead
  rw [BT.run_bind]
  have hu : u.link ∈ u.ids := by
    have hpos := hplain.pos
    obtain ⟨m,rfl⟩ : ∃ k, m = k + 1 := ⟨m - 1,by omega⟩
    exact Index.link_mem
  have hin : ∀ b ∈ u.ids ++ rest, k.file.Has b := fun b hb => hcat.index.store.has_used (List.mem_append_right _ hb)
  have hcatd : ∀ d, k2.Shows d → Catalog ⟨c.entering.reads (k.file.block ZSUPER),d⟩ t fs (u.ids ++ rest) u.link :=
    fun d hd => hcat.moved (hcat.index.asIs (hlike _ d (hback2 d hd))) (hcat.index.store.asIs (hlike _ d (hback2 d hd)))
  have htyped : ∀ d, k2.Shows d → (d.block u.link).btype = ZROOT := fun d hd => by
    rw [hsame d (hback2 d hd) _ (hin _ (List.mem_append_left _ hu))]
    exact (hplain.index.kind _ hu).trans (if_pos rfl)
  have hdef := ends_default Cache.mirrors_alone hslots hcap hbetween2 hk2 (hB2.trans hB) rfl Int.one_nonneg rfl hcatd htyped
    (List.mem_append_left _ hu) (by omega)
  have hdef := ((ignoresLock_btchgr Int.one_pos (key "$$default")).alike 1 le_rfl
    ((c.entering.reads (k.file.block ZSUPER)).withLock 1) _ ⟨rfl,False.elim,rfl⟩).ends Cache.alone _ hdef
  refine (hdef.mono (fun o k' he => ⟨he.1,fun d hd hn => ⟨_,he.2 d hd hn⟩⟩) fun r hr => hr).bind ?_
  rintro ⟨⟨code,c0⟩,k3⟩ ⟨⟨code',c3⟩,⟨rfl,-,-,hc0⟩,⟨hbetween3,htold⟩,hp⟩
  obtain rfl : c0 = c3.withLock 1 := hc0
  obtain ⟨_,-,-,rfl,herr,hroot,_,⟨_,_,hcv,-⟩,-⟩ := hp _ k3.shows_view
  simp only [ne_eq, not_true_eq_false, if_false]
  -- the lock is given back
  rw [run_btopnFound_shared 0 herr]
  have hz3 : k3.file.Has ZSUPER := hcv.has
  have hbetween3 : BetweenCalls { c3 with super.smode := 0 } k3 := ⟨hbetween3.shared,hbetween3.size,hbetween3.keeps,hbetween3.backed⟩
  have hsync := ((ignoresLock_btsync (p := False) (l := 1)).alike 1 le_rfl ({ c3 with super.smode := 0 }.withLock 1) _
    ⟨hbetween3.shared,False.elim,rfl⟩).ends Cache.alone _ (ends_btsync hslots hbetween3 hz3)
  refine (hsync.mono (fun o k' he => ⟨he.1,fun d hd hn => absurd hn (he.2 d hd)⟩) fun r hr => hr).bind ?_
  rintro ⟨⟨_,c0⟩,k4⟩ ⟨⟨_,c4⟩,⟨-,-,-,hc0⟩,hc4,hclear4,hlab4,d,hd,hfile⟩
  obtain rfl : c0 = c4.withLock 1 := hc0
  obtain rfl : c4 = { { c3 with super.smode := 0 } with super.smod := 0 } := hc4
  obtain ⟨d0,hd0,-,-,-,-,fs',⟨n',t',hc',hl'⟩,hk⟩ := hp d hd
  simp only at hclear4 hlab4 hfile ⊢
  have hother : ∀ b ∈ u.ids ++ rest, d.block b = k.file.block b := fun b hb =>
    (hk.other b hb).trans (hsame d0 (hback2 d0 hd0) b (hin b hb))
  have hroot3 : Root ⟨{ c3 with super.smode := 0 },d⟩ (t'.ids ++ rest) μ keys := by
    refine ⟨⟨hk.isopen,hbetween3.shared,rfl⟩,m,u,fs',?_,hkeys⟩
    refine hplain.moved hroot (fun b hb => hother b (List.mem_append_left _ hb)) ?_
    refine (hc'.index.store.perm ?_).transfer rfl (fun _ _ => rfl) rfl rfl
    rw [← List.append_assoc, ← List.append_assoc]
    exact List.perm_append_comm.append_right rest
  have hinfo : (k.file.block ZSUPER).SameInfo (d.block ZSUPER) := by
    rw [← hsame d0 (hback2 d0 hd0) ZSUPER hz]
    exact hk.info
  have hstep : InStep (c.entering.reads (k.file.block ZSUPER)).super (d.block ZSUPER) :=
    ⟨le_rfl,fun _ => ⟨hinfo.nxblk,hinfo.nblks,hinfo.misc⟩⟩
  have hstep3 : InStep { c3.super with smode := 0 } (d.block ZSUPER) :=
    ⟨(hstep.told htold).counts,(hstep.told htold).tells⟩
  have hver3 : (d.block ZSUPER).getInf .ZBTVER = ZVERS := by
    rw [Block.getInf, hinfo.btver, hinfo.bthdr]
    exact hver
  refine ⟨herr,⟨hk.isopen,rfl,rfl,hroot,rfl,le_rfl,hclear4,hlab4⟩,?_,fun b hb => ?_⟩
  · rw [hfile]
    exact hc'.savedAt (hroot3.synced (List.mem_append_left _ hc'.link_mem) rfl hk.isopen hbetween3.shared) hroot
      (InStep.synced (s := ⟨{ c3 with super.smode := 0 },d⟩) hstep3)
      (St.synced_renewed (s := ⟨{ c3 with super.smode := 0 },d⟩)) hver3 (fun b _ hbz => St.synced_block hbz) (hl' ▸ hlen)
  · have hbz : b ≠ ZSUPER := fun hbz =>
      (List.nodup_append.1 hroot3.nodup_os).2.2 ZSUPER hc'.link_mem b hb hbz.symm
    rw [hfile, St.synced_block hbz]
    exact hother b (List.mem_append_right _ hb)

end Opens

end Btlib
