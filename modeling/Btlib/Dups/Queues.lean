import Btlib.Dups.Chains
import Btlib.Source.Keys

namespace Btlib

open Links

variable [Build] {s s' : St} {fs fs' D D' os : List Int} {n n' : Int → Nat}
  {live live' : Finset (Int × Nat)} {ent ent' : Int × Nat → DKey} {b i j val : Int} {d : DKey}
  {p q t : Int × Nat} {ps us : List (Int × Nat)} {v : Int} {vs lvs rvs : List Int} {k key : Key} {ke ke' : KeyEnt}
  {E : Op → Disk → Prop}

-- The last found position is that of the entry `ke`.
structure Found (s : St) (os : List Int) (b i : Int) (ke : KeyEnt) : Prop where
  mem : b ∈ os
  low : 0 ≤ i
  high : i < ZMXKEY
  ent : (s.disk.block b).keyblk i = ke
  blk : s.ctx.lf.lfblk = b
  pos : s.ctx.lf.lfpos = i
  err : s.ctx.err.qerror = 0

-- What an operation on the key `k` makes of its entry and its duplicates.
structure Turns (s s' : St) (os : List Int) (b i : Int) (live : Finset (Int × Nat)) (ent : Int × Nat → DKey)
    (ke : KeyEnt) (vs : List Int) (fs' D' : List Int) (n' : Int → Nat) (live' : Finset (Int × Nat))
    (ent' : Int × Nat → DKey) (ke' : KeyEnt) (ps' : List (Int × Nat)) : Prop where
  dups : Dups s' fs' D' os n' live' ent'
  frame : Frame ke.key live ent live' ent'
  edit : Edit s s' os b i ke'
  key : ke'.key = ke.key
  chained : Chained live' ent' ke' ps' vs

namespace Dups

-- A key as the entries hold it.
structure Named (key k : Key) : Prop where
  copy : keycpy key = k
  short : k.length ≤ ZKYLEN - 1
  nonzero : ∀ c ∈ k, c ≠ 0

theorem ends_btdupkeyAdd (hb : Sized) (h : Dups s fs D os n live ent) (hmem : b ∈ os)
    (herr : s.ctx.err.qerror = 0) (hkey : Named key k) (hval : Fits val)
    (hl : Linked (Cell live ent k) addr ZNULL ZNULL (us ++ [t]) vs) (hnd : (us ++ [t]).Nodup)
    (hdup : ke.dup = addr t) (hE : ∀ o d, NoBlock o d → E o d) :
    (exec (btdupkeyAdd key val b i ke) s).Ends E fun r => ∃ fs' D' n' live' ent' q,
      Dups r.2 fs' D' os n' live' ent' ∧ Frame k live ent live' ent' ∧
      Edit s r.2 os b i { ke with dup := addr q } ∧ r.2.ctx.lf = s.ctx.lf ∧ (us ++ [t] ++ [q]).Nodup ∧
      Linked (Cell live' ent' k) addr ZNULL ZNULL (us ++ [t] ++ [q]) (vs ++ [val]) := by
  have hcell : ∀ u ∈ us ++ [t], u ∈ live ∧ (ent u).key = k := fun u hu => by
    obtain ⟨v,nx,pv,hlive,hent⟩ := hl.exists_node hu
    exact ⟨hlive,by rw [hent]⟩
  obtain ⟨htl,htk⟩ := hcell t (by simp)
  have hfits : DKey.Fits ⟨keycpy key,false,val,ZNULL,ke.dup⟩ := by
    rw [hkey.copy, hdup]
    exact ⟨hkey.short,hkey.nonzero,hval,fits_null hb,h.fits_addr hb htl⟩
  rw [btdupkeyAdd, exec_bind]
  refine (h.ends_binsdt hb hfits hE).bind fun r hr => ?_
  obtain ⟨fs1,D1,n1,q,hq,hr1,h1,ha1⟩ := hr
  obtain ⟨a,s1⟩ := r
  dsimp only at hr1 h1 ha1 ⊢
  subst hr1
  have hql : q ∈ insert q live := Finset.mem_insert_self _ _
  have htq : t ≠ q := ne_of_mem_of_not_mem htl hq
  have htl1 : t ∈ insert q live := Finset.mem_insert_of_mem htl
  have hget := h1.getdkey hb htl1
  rw [Function.update_of_ne htq] at hget
  have hft := (h.seg t htl).2.2.2
  obtain ⟨s2,hput,h2,ha2,hctx2⟩ := h1.putdkey hb (d := { ent t with flink := addr q }) htl1
    ⟨hft.short,hft.nonzero,hft.val,h1.fits_addr hb hql,hft.blink⟩
  have herr1 : s1.ctx.err.qerror = 0 := by rw [ha1.ctx, herr]
  obtain ⟨h3,he3⟩ := h2.setKey hmem i { ke with dup := addr q }
  have hpk := h2.exec_putkeyent hmem i { ke with dup := addr q }
  rw [if_neg (h1.addr_ne_null hql), hdup]
  simp only [exec_bind, hget, Prog.Outcome.bind_done, hput, herr1, if_true, hpk, exec_btgerr,
    Prog.Outcome.ends_done]
  have hlf : s2.ctx.lf = s.ctx.lf := by rw [hctx2, ha1.ctx]
  refine ⟨_,_,_,_,_,q,h3,?_,(ha1.trans ha2).trans_edit he3,hlf,?_,?_⟩
  · refine (Frame.insert hq _).trans (Frame.update ?_ _)
    rw [Function.update_of_ne htq, htk]
  · refine List.nodup_append.2 ⟨hnd,List.nodup_singleton _,fun u hu c hc huc => ?_⟩
    rw [List.mem_singleton] at hc
    exact hq (hc ▸ huc ▸ (hcell u hu).1)
  · refine hl.snoc (fun u hu v nx pv hc => ?_) (fun v pv hc => ?_) ?_
    · have hut : u ≠ t := fun hut => (List.nodup_append.1 hnd).2.2 u hu t (List.mem_singleton_self t) hut
      refine ⟨Finset.mem_insert_of_mem hc.1,?_⟩
      rw [Function.update_of_ne hut, Function.update_of_ne (ne_of_mem_of_not_mem hc.1 hq), hc.2]
    · refine ⟨htl1,?_⟩
      rw [Function.update_self, hc.2]
    · refine ⟨hql,?_⟩
      rw [Function.update_of_ne htq.symm, Function.update_self, hkey.copy, hdup]

theorem ends_btdupkey (hb : Sized) (h : Dups s fs D os n live ent) (hf : Found s os b i ke)
    (hkey : Named key ke.key) (hval : Fits val) (hvs : ∀ v ∈ vs, Fits v) (hc : Chained live ent ke ps vs)
    (hE : ∀ o d, NoBlock o d → E o d) :
    (exec (btdupkey key val) s).Ends E fun r => ∃ fs' D' n' live' ent' ke' ps',
      Turns s r.2 os b i live ent ke (vs ++ [val]) fs' D' n' live' ent' ke' ps' ∧ r.2.ctx.lf = s.ctx.lf ∧ ps' ≠ [] ∧
        (ps ≠ [] → front addr ZNULL ps' = front addr ZNULL ps) := by
  have hget := h.exec_getkeyent hf.mem (i := i)
  rw [hf.ent] at hget
  simp only [btdupkey, exec_bind, exec_get, Prog.Outcome.bind_done, hf.blk, hf.pos, hget, exec_ite]
  rcases hc with ⟨rfl,hdup,rfl⟩ | ⟨hne,hnd,hfront,hback,hl⟩
  · rw [if_pos hdup]
    have hfits : DKey.Fits ⟨keycpy key,false,ke.val,ZNULL,ZNULL⟩ := by
      rw [hkey.copy]
      exact ⟨hkey.short,hkey.nonzero,hvs _ (List.mem_singleton_self _),fits_null hb,fits_null hb⟩
    refine (h.ends_binsdt hb hfits hE).bind fun r hr => ?_
    obtain ⟨fs1,D1,n1,q,hq,hr1,h1,ha1⟩ := hr
    obtain ⟨a,s1⟩ := r
    dsimp only at hr1 h1 ha1 ⊢
    subst hr1
    have hql : q ∈ insert q live := Finset.mem_insert_self _ _
    have hl : Linked (Cell (insert q live) (Function.update ent q ⟨keycpy key,false,ke.val,ZNULL,ZNULL⟩) ke.key)
        addr ZNULL ZNULL ([] ++ [q]) [ke.val] :=
      linked_cons.2 ⟨⟨hql,by rw [Function.update_self, hkey.copy]; rfl⟩,rfl⟩
    have herr1 : s1.ctx.err.qerror = 0 := by rw [ha1.ctx, hf.err]
    rw [if_neg (h1.addr_ne_null hql)]
    have hdupq : ({ ke with val := addr q, dup := addr q } : KeyEnt).dup = addr q := rfl
    have hadd := h1.ends_btdupkeyAdd hb hf.mem (i := i) herr1 hkey hval hl (by simp) hdupq hE
    refine hadd.mono (fun _ _ h => h) fun r hr => ?_
    obtain ⟨fs2,D2,n2,live2,ent2,c,h2,hf2,he2,hlf2,hnd2,hl2⟩ := hr
    refine ⟨_,_,_,_,_,_,_,⟨h2,(Frame.insert hq _).trans hf2,ha1.trans_edit he2,rfl,
      Or.inr ⟨by simp,hnd2,rfl,rfl,hl2⟩⟩,hlf2.trans ?_,by simp,fun hne => absurd rfl hne⟩
    rw [ha1.ctx]
  · obtain ⟨us,t,rfl⟩ := (List.eq_nil_or_concat' ps).resolve_left hne
    rw [back_append] at hback
    have htl : t ∈ live := by
      obtain ⟨v,nx,pv,hlive,-⟩ := hl.exists_node (p := t) (by simp)
      exact hlive
    rw [if_neg (by rw [hback]; exact h.addr_ne_null htl)]
    refine (h.ends_btdupkeyAdd hb hf.mem hf.err hkey hval hl hnd hback hE).mono (fun _ _ h => h) fun r hr => ?_
    obtain ⟨fs2,D2,n2,live2,ent2,c,h2,hf2,he2,hlf2,hnd2,hl2⟩ := hr
    refine ⟨_,_,_,_,_,_,_,⟨h2,hf2,he2,rfl,Or.inr ⟨by simp,hnd2,?_,?_,hl2⟩⟩,hlf2,by simp,fun _ => front_append hne _⟩
    · rw [front_append hne]
      exact hfront
    · rw [back_append]

theorem exec_btduppos (hb : Sized) (h : Dups s fs D os n live ent) (hf : Found s os b i ke)
    (hd : s.ctx.lf.draddr = ZNULL) (hx : s.ctx.lf.lfexct = true) (hc : Chained live ent ke ps (v :: vs)) :
    ∃ code, exec (btduppos ZNEXT ke.val) s =
      .done ((code, v), { s with ctx.lf := { s.ctx.lf with draddr := front addr ZNULL ps } }) := by
  have hget := h.exec_getkeyent hf.mem (i := i)
  rw [hf.ent] at hget
  rcases hc with ⟨rfl,hdup,heq⟩ | ⟨hne,-,hfront,hback,hl⟩
  · obtain ⟨rfl,-⟩ := List.cons.inj heq
    have hrun : exec (btduppos ZNEXT ke.val) s = .done ((ZNULL, ke.val), s) := by
      simp only [btduppos, exec_bind, exec_get, Prog.Outcome.bind_done, exec_ite, hd, hx, not_true_eq_false,
        and_false, if_false, if_true, hf.blk, hf.pos, hget, hdup, exec_pure]
    refine ⟨ZNULL,?_⟩
    rw [hrun, front, ← hd]
  · cases ps with
    | nil => exact absurd rfl hne
    | cons p ps =>
        obtain ⟨hcell,-⟩ := linked_cons.1 hl
        obtain ⟨us,t,heq⟩ := (List.eq_nil_or_concat' (p :: ps)).resolve_left hne
        have hdup : ke.dup ≠ ZNULL := by
          have htl : t ∈ live := by
            obtain ⟨v,nx,pv,hlive,-⟩ := hl.exists_node (p := t) (by rw [heq]; simp)
            exact hlive
          rw [hback, heq, back_append]
          exact h.addr_ne_null htl
        have hkey := h.getdkey hb hcell.1
        have hrun : exec (btduppos ZNEXT ke.val) s = .done ((0, (ent p).val),
            { s with ctx.lf := { s.ctx.lf with draddr := addr p, lfexct := true } }) := by
          simp only [btduppos, exec_bind, exec_get, Prog.Outcome.bind_done, exec_ite, hd, hx, not_true_eq_false,
            and_false, if_false, if_true, hf.blk, hf.pos, hget, hdup, hfront, front, hkey, btdupposFound,
            exec_setLf, exec_pure]
        have hlf : ({ s.ctx.lf with draddr := addr p, lfexct := true } : Lf) =
            { s.ctx.lf with draddr := addr p } := by rw [← hx]
        refine ⟨0,?_⟩
        rw [hrun, hlf, hcell.2, front]

-- The value that is selected takes another value.
theorem exec_bmodky (hb : Sized) (h : Dups s fs D os n live ent) (hf : Found s os b i ke) (hd : OnDup s ps lvs.length)
    (hval : Fits val) (hc : Chained live ent ke ps (lvs ++ v :: rvs)) :
    ∃ s' live' ent' ke', exec (bmodky b i val) s = .done ((), s') ∧ s'.ctx = s.ctx ∧
      Turns s s' os b i live ent ke (lvs ++ val :: rvs) fs D n live' ent' ke' ps := by
  have hin : ¬ (ZMXKEY ≤ i ∨ i < 0) := by
    have h1 := hf.low
    have h2 := hf.high
    omega
  have hhas : s.disk.Has b := h.store.has_used (List.mem_append_right _ hf.mem)
  rcases hc with ⟨rfl,hdup,heq⟩ | ⟨hne,hnd,hfront,hback,hl⟩
  · obtain ⟨rfl,rfl,rfl⟩ : lvs = [] ∧ v = ke.val ∧ rvs = [] := by
      cases lvs with
      | nil => simpa using heq
      | cons x xs => simp at heq
    have hnull : s.ctx.lf.draddr = ZNULL := by
      rcases hd with ⟨-,hd⟩ | ⟨us,p,ws,hps,-⟩
      · exact hd
      · simp at hps
    obtain ⟨h1,he1⟩ := h.setKey hf.mem i { ke with val := val }
    refine ⟨⟨s.ctx,s.disk.put b ((s.disk.block b).setKey i { ke with val := val })⟩,live,ent,{ ke with val := val },?_,rfl,
      h1,.refl _ _ _,he1,rfl,Or.inl ⟨rfl,hdup,rfl⟩⟩
    have hupd : exec (btdupupd val) s = .done (ZNULL, s) := by
      simp only [btdupupd, exec_bind, exec_get, Prog.Outcome.bind_done, exec_ite, hnull, if_true, exec_pure]
    simp only [bmodky, exec_ite, if_neg hin, exec_bind, hupd, Prog.Outcome.bind_done, if_true, exec_brdblk,
      Disk.read_eq hhas, hf.ent, exec_wr]
  · obtain ⟨us,p,ws,rfl,hlen,haddr⟩ := hd.resolve_left fun hnil => hne hnil.1
    have hcell := hl.middle hlen
    have hfits := (h.seg p hcell.1).2.2.2
    have hpos := h.addr_ne_null hcell.1
    have hget := h.getdkey hb hcell.1
    obtain ⟨s1,hput,h1,ha1,hctx1⟩ := h.putdkey hb (d := { ent p with val := val }) hcell.1
      ⟨hfits.short,hfits.nonzero,hval,hfits.flink,hfits.blink⟩
    refine ⟨s1,live,_,ke,?_,hctx1,h1,Frame.update (by rw [hcell.2]) _,ha1.edit hf.ent,rfl,
      Or.inr ⟨hne,hnd,hfront,hback,hl.set hlen (fun q hq v nx pv hc => ?_) fun nx pv hc => ?_⟩⟩
    · have hupd : exec (btdupupd val) s = .done (addr p, s1) := by
        simp only [btdupupd, exec_bind, exec_get, Prog.Outcome.bind_done, exec_ite, haddr, if_neg hpos, hget,
          hput, exec_pure]
      simp only [bmodky, exec_ite, if_neg hin, exec_bind, hupd, Prog.Outcome.bind_done, if_neg hpos, exec_pure]
    · have hqp : q ≠ p := by
        have hp : p ∉ us ++ ws := (List.nodup_cons.1 (List.nodup_middle.1 hnd)).1
        exact ne_of_mem_of_not_mem hq hp
      exact ⟨hc.1,by rw [Function.update_of_ne hqp, hc.2]⟩
    · refine ⟨hc.1,?_⟩
      rw [Function.update_self, hc.2]

theorem exec_deldkey (hb : Sized) (h : Dups s fs D os n live ent) (hp : p ∈ live)
    (herr : s.ctx.err.qerror = 0) : ∃ s' fs' D' ent', exec (deldkey (addr p) (ent p)) s = .done (0, s') ∧
      Dups s' fs' D' os n (live.erase p) ent' ∧ (∀ q, q ≠ p → ent' q = ent q) ∧ Apart s s' os ∧
        Stale s' p { ent p with deleted := true } (Only live p) := by
  have hfits := (h.seg p hp).2.2.2
  obtain ⟨s1,hput,h1,ha1,hctx1⟩ := h.putdkey hb (d := { ent p with deleted := true }) hp
    ⟨hfits.short,hfits.nonzero,hfits.val,hfits.flink,hfits.blink⟩
  obtain ⟨s2,fs2,D2,hdel,h2,ha2,hs2⟩ := h1.deldat hb hp
  rw [Function.update_self] at hs2
  refine ⟨s2,fs2,D2,_,?_,h2,fun q hq => Function.update_of_ne hq _ _,ha1.trans ha2,hs2⟩
  simp only [deldkey, exec_bind, hput, Prog.Outcome.bind_done, herr, ne_eq, not_true_eq_false, if_false,
    h.cnvdraddr_addr hp, hdel, exec_pure]

theorem exec_relink_null (f : DKey → DKey) : exec (relink ZNULL f) s = .done (true, s) := by
  simp only [relink, if_true, exec_pure]

-- One of the neighbours of an entry that has gone, if there is one.
theorem exec_relink (hb : Sized) (h : Dups s fs D os n live ent) (herr : s.ctx.err.qerror = 0) {f : DKey → DKey} {a : Int}
    (ha : a = ZNULL ∨ ∃ q ∈ live, a = addr q ∧ (f (ent q)).Fits) :
    ∃ s' ent', exec (relink a f) s = .done (true, s') ∧ Dups s' fs D os n live ent' ∧ Apart s s' os ∧ s'.ctx = s.ctx ∧
      (∀ q ∈ live, ent' q = if addr q = a then f (ent q) else ent q) ∧
        ∀ p d gone, p ∉ live → Stale s p d gone → Stale s' p d gone := by
  rcases ha with rfl | ⟨q,hq,rfl,hfits⟩
  · refine ⟨s,ent,exec_relink_null f,h,.refl s os,rfl,fun q hq => ?_,fun _ _ _ _ hs => hs⟩
    rw [if_neg (h.addr_ne_null hq)]
  · obtain ⟨s1,hput,h1,ha1,hctx1⟩ := h.putdkey hb hq hfits
    refine ⟨s1,_,?_,h1,ha1,hctx1,fun c hc => ?_,fun p d gone hp hs => h.stale_putdkey hb hq hfits hput hp hs⟩
    · simp only [relink, if_neg (h.addr_ne_null hq), exec_bind, h.getdkey hb hq, Prog.Outcome.bind_done,
        hput, herr, exec_pure, decide_true]
    · by_cases hcq : c = q
      · rw [hcq, Function.update_self, if_pos rfl]
      · rw [Function.update_of_ne hcq, if_neg fun heq => hcq (h.addr_inj hc hq heq)]

-- What leads to an entry of a chain is not what it leads to.
theorem beside (h : Dups s fs D os n live ent) {us ws : List (Int × Nat)} (hnd : (us ++ p :: ws).Nodup)
    (hl : Linked (Cell live ent k) addr ZNULL ZNULL (us ++ p :: ws) (lvs ++ v :: rvs)) (hlen : us.length = lvs.length) :
    (∀ q ∈ live, addr q = back addr ZNULL us → q ∈ us ∧ (ent q).flink = addr p) ∧
      (∀ q ∈ live, addr q = front addr ZNULL ws → q ∈ ws ∧ (ent q).blink = addr p) ∧ ∀ q ∈ us ++ ws, addr q ≠ addr p := by
  have hlive : ∀ q ∈ us ++ p :: ws, q ∈ live := fun q hq => by
    obtain ⟨w,nx,pv,hcell⟩ := hl.exists_node hq
    exact hcell.1
  have hp : p ∉ us ++ ws := (List.nodup_cons.1 (List.nodup_middle.1 hnd)).1
  refine ⟨fun q hq heq => ?_,fun q hq heq => ?_,fun q hq heq => ?_⟩
  · rcases List.eq_nil_or_concat' us with rfl | ⟨us,u,rfl⟩
    · exact absurd heq (h.addr_ne_null hq)
    · rw [back_append] at heq
      obtain rfl := h.addr_inj hq (hlive u (by simp)) heq
      obtain ⟨lvs,w,rfl⟩ := (List.eq_nil_or_concat' lvs).resolve_left fun hnil => by simp [hnil] at hlen
      rw [List.append_assoc, List.append_assoc] at hl
      have hcell := hl.middle (by simpa using hlen)
      exact ⟨by simp,by rw [hcell.2]; rfl⟩
  · cases ws with
    | nil => exact absurd heq (h.addr_ne_null hq)
    | cons w ws =>
        obtain rfl := h.addr_inj hq (hlive w (by simp)) heq
        have hlen' := hl.length_eq
        cases rvs with
        | nil => simp [hlen] at hlen'
        | cons x rvs =>
            rw [List.append_cons us p, List.append_cons lvs v] at hl
            have hcell := hl.middle (by simpa using hlen)
            rw [back_append] at hcell
            exact ⟨List.mem_cons_self,by rw [hcell.2]⟩
  · have hmem : q ∈ us ++ p :: ws := by
      rcases List.mem_append.1 hq with hq | hq
      · exact List.mem_append_left _ hq
      · exact List.mem_append_right _ (List.mem_cons_of_mem _ hq)
    exact hp (h.addr_inj (hlive q hmem) (hlive p (by simp)) heq ▸ hq)

-- What is left of a chain, when the entry at `p` is gone and the two beside it have been told.
theorem linked_rest (h : Dups s fs D os n live ent) {us ws : List (Int × Nat)} (hnd : (us ++ p :: ws).Nodup)
    (hl : Linked (Cell live ent k) addr ZNULL ZNULL (us ++ p :: ws) (lvs ++ v :: rvs)) (hlen : us.length = lvs.length)
    {ent1 ent2 ent3 : Int × Nat → DKey} (h1 : ∀ q, q ≠ p → ent1 q = ent q)
    (h2 : ∀ q ∈ live.erase p, ent2 q = if addr q = back addr ZNULL us then { ent1 q with flink := front addr ZNULL ws } else
      ent1 q)
    (h3 : ∀ q ∈ live.erase p, ent3 q = if addr q = front addr ZNULL ws then { ent2 q with blink := back addr ZNULL us } else
      ent2 q) :
    Linked (Cell (live.erase p) ent3 k) addr ZNULL ZNULL (us ++ ws) (lvs ++ rvs) := by
  obtain ⟨hback,hfront,hne⟩ := h.beside hnd hl hlen
  have hpl : p ∈ live := (hl.middle hlen).1
  have hnull := h.addr_ne_null hpl
  have herase : ∀ q ∈ us ++ ws, q ∈ live → q ≠ p ∧ q ∈ live.erase p := fun q hq hql => by
    have hqp : q ≠ p := fun hqp => hne q hq (congrArg addr hqp)
    exact ⟨hqp,Finset.mem_erase_of_ne_of_mem hqp hql⟩
  refine hl.unlink hlen hne hnull.symm hnull.symm ?_ ?_ ?_
  · intro q hq v nx pv hnx hpv hc
    obtain ⟨hqp,hqe⟩ := herase q hq hc.1
    refine ⟨hqe,?_⟩
    rw [h3 q hqe, if_neg fun heq => hpv ?_, h2 q hqe, if_neg fun heq => hnx ?_, h1 q hqp, hc.2]
    · have := (hback q hc.1 heq).2
      rwa [hc.2] at this
    · have := (hfront q hc.1 heq).2
      rwa [hc.2] at this
  · intro u hu heq v pv hpv hc
    obtain ⟨hqp,hqe⟩ := herase u (List.mem_append_left _ hu) hc.1
    refine ⟨hqe,?_⟩
    rw [h3 u hqe, if_neg fun hf => hpv ?_, h2 u hqe, if_pos heq, h1 u hqp, hc.2]
    have := (hfront u hc.1 hf).2
    rwa [hc.2] at this
  · intro w hw heq v nx hnx hc
    obtain ⟨hqp,hqe⟩ := herase w (List.mem_append_right _ hw) hc.1
    refine ⟨hqe,?_⟩
    rw [h3 w hqe, if_pos heq, h2 w hqe, if_neg fun hb => hnx ?_, h1 w hqp, hc.2]
    have := (hback w hc.1 hb).2
    rwa [hc.2] at this

-- The value that is selected goes; the entry of the key stays with the others, or is left to be removed.
theorem exec_btdeldup (hb : Sized) (h : Dups s fs D os n live ent) (hf : Found s os b i ke) (hd : OnDup s ps lvs.length)
    (hc : Chained live ent ke ps (lvs ++ v :: rvs)) :
    ∃ s' fs' D' live' ent',
      lvs ++ rvs = [] ∧ exec btdeldup s = .done (ZNULL, s') ∧ Dups s' fs' D' os n live' ent' ∧
        Frame ke.key live ent live' ent' ∧ Edit s s' os b i ke ∨
      lvs ++ rvs ≠ [] ∧ exec btdeldup s = .done (0, s') ∧ ∃ ke' us p ws, ps = us ++ p :: ws ∧ us.length = lvs.length ∧
        Turns s s' os b i live ent ke (lvs ++ rvs) fs' D' n live' ent' ke' (us ++ ws) ∧
          s'.ctx.lf = { s.ctx.lf with lfexct := false } ∧
            Stale s' p ⟨ke.key,true,v,front addr ZNULL ws,back addr ZNULL us⟩ (Only live p) := by
  have hget := h.exec_getkeyent hf.mem (i := i)
  rw [hf.ent] at hget
  rcases hc with ⟨rfl,hdup,heq⟩ | ⟨hne,hnd,hfront,hback,hl⟩
  · obtain ⟨rfl,rfl,rfl⟩ : lvs = [] ∧ v = ke.val ∧ rvs = [] := by
      cases lvs with
      | nil => simpa using heq
      | cons x xs => simp at heq
    have hnull : s.ctx.lf.draddr = ZNULL := by
      rcases hd with ⟨-,hd⟩ | ⟨us,p,ws,hps,-⟩
      · exact hd
      · simp at hps
    refine ⟨s,fs,D,live,ent,Or.inl ⟨rfl,?_,h,.refl _ _ _,(Apart.refl s os).edit hf.ent⟩⟩
    simp only [btdeldup, exec_bind, exec_get, Prog.Outcome.bind_done, exec_ite, hnull, if_true, exec_pure]
  obtain ⟨us,p,ws,rfl,hlen,haddr⟩ := hd.resolve_left fun hnil => hne hnil.1
  obtain ⟨hbackp,hfrontp,hnep⟩ := h.beside hnd hl hlen
  have hcell := hl.middle hlen
  have hkey : (ent p).key = ke.key := by rw [hcell.2]
  have hblink : (ent p).blink = back addr ZNULL us := by rw [hcell.2]
  have hflink : (ent p).flink = front addr ZNULL ws := by rw [hcell.2]
  have hpos := h.addr_ne_null hcell.1
  have hdk := h.getdkey hb hcell.1
  have hrlen : ws.length = rvs.length := by
    have := hl.length_eq
    simp only [List.length_append, List.length_cons] at this
    omega
  by_cases hnil : lvs ++ rvs = []
  · -- the only value: what is left of the chain is the entry of the key
    obtain ⟨rfl,rfl⟩ := List.append_eq_nil_iff.1 hnil
    obtain rfl := List.eq_nil_of_length_eq_zero hlen
    obtain rfl := List.eq_nil_of_length_eq_zero hrlen
    obtain ⟨s1,fs1,D1,ent1,hdel,h1,hent1,ha1,-⟩ :=
      (h.withLf { s.ctx.lf with draddr := ZNULL }).exec_deldkey hb hcell.1 hf.err
    have h2 := h1.withLf { s1.ctx.lf with lfexct := false }
    obtain ⟨h3,he3⟩ := h2.setKey hf.mem i ke
    simp only [hf.blk, hf.pos] at hdel
    refine ⟨_,fs1,D1,_,ent1,Or.inl ⟨rfl,?_,h3,?_,(ha1.trans_edit (he3.ofLf rfl rfl rfl)).ofLf rfl rfl rfl⟩⟩
    · have hnone : (ent p).blink = ZNULL := hblink
      have hlast : (ent p).flink = ZNULL := hflink
      simp only [btdeldup, exec_bind, exec_get, Prog.Outcome.bind_done, exec_ite, haddr, if_neg hpos, hdk,
        hf.blk, hf.pos, hget, hnone, hlast, and_self, if_true, exec_setLf, hdel, ne_eq, not_true_eq_false,
        if_false, exec_relink_null, h2.exec_putkeyent hf.mem, exec_pure]
    · intro q hq hqk
      have hqp : q ≠ p := ne_of_apply_ne (fun r => (ent r).key) (hkey.symm ▸ hqk)
      exact ⟨Finset.mem_erase_of_ne_of_mem hqp hq,hent1 q hqp⟩
  · have hlive : ∀ q ∈ us ++ ws, q ∈ live.erase p ∧ (ent q).key = ke.key := fun q hq => by
      have hmem : q ∈ us ++ p :: ws := by
        rcases List.mem_append.1 hq with hq | hq
        · exact List.mem_append_left _ hq
        · exact List.mem_append_right _ (List.mem_cons_of_mem _ hq)
      obtain ⟨w,nx,pv,hql,hent⟩ := hl.exists_node hmem
      exact ⟨Finset.mem_erase_of_ne_of_mem (fun hqp => hnep q hq (congrArg addr hqp)) hql,by rw [hent]⟩
    have hnext : front addr ZNULL ws = ZNULL ∨ ∃ w ∈ live.erase p, front addr ZNULL ws = addr w :=
      (front_mem ws).imp (·.2) fun ⟨w,hw,heq⟩ => ⟨w,(hlive w (List.mem_append_right _ hw)).1,heq⟩
    have hprev : back addr ZNULL us = ZNULL ∨ ∃ u ∈ live.erase p, back addr ZNULL us = addr u :=
      (back_mem us).imp (·.2) fun ⟨u,hu,heq⟩ => ⟨u,(hlive u (List.mem_append_left _ hu)).1,heq⟩
    have hfits : ∀ {a : Int}, (a = ZNULL ∨ ∃ q ∈ live.erase p, a = addr q) → Fits a := fun ha => by
      rcases ha with rfl | ⟨q,hq,rfl⟩
      · exact fits_null hb
      · exact h.fits_addr hb (Finset.mem_of_mem_erase hq)
    obtain ⟨s1,fs1,D1,ent1,hdel,h1,hent1,ha1,hs1⟩ := h.exec_deldkey hb hcell.1 hf.err
    have herr1 : s1.ctx.err.qerror = 0 := by rw [ha1.ctx, hf.err]
    obtain ⟨s2,ent2,hrel1,h2,ha2,hctx2,hent2,hstale2⟩ := h1.exec_relink hb herr1
      (f := fun d => { d with flink := front addr ZNULL ws }) (hprev.imp_right fun ⟨u,hu,heq⟩ => ⟨u,hu,heq,by
        have := (h1.seg u hu).2.2.2
        exact ⟨this.short,this.nonzero,this.val,hfits hnext,this.blink⟩⟩)
    obtain ⟨s3,ent3,hrel2,h3,ha3,hctx3,hent3,hstale3⟩ := h2.exec_relink hb (by rw [hctx2, herr1])
      (f := fun d => { d with blink := back addr ZNULL us }) (hnext.imp_right fun ⟨w,hw,heq⟩ => ⟨w,hw,heq,by
        have := (h2.seg w hw).2.2.2
        exact ⟨this.short,this.nonzero,this.val,this.flink,hfits hprev⟩⟩)
    have hrest := h.linked_rest hnd hl hlen hent1 hent2 hent3
    have hus : back addr ZNULL us = ZNULL → us = [] := fun hu => ((back_mem us).resolve_right fun ⟨u,hmem,heq⟩ =>
      h.addr_ne_null (Finset.mem_of_mem_erase (hlive u (List.mem_append_left _ hmem)).1) (heq.symm.trans hu)).1
    have hws : front addr ZNULL ws = ZNULL → ws = [] := fun hw => ((front_mem ws).resolve_right fun ⟨w,hmem,heq⟩ =>
      h.addr_ne_null (Finset.mem_of_mem_erase (hlive w (List.mem_append_right _ hmem)).1) (heq.symm.trans hw)).1
    have hne' : us ++ ws ≠ [] := fun hboth => by
      obtain ⟨rfl,rfl⟩ := List.append_eq_nil_iff.1 hboth
      exact hnil (by rw [List.eq_nil_of_length_eq_zero hlen.symm, List.eq_nil_of_length_eq_zero hrlen.symm]; rfl)
    obtain ⟨ke',hke⟩ : ∃ ke', ke' = if back addr ZNULL us = ZNULL then { ke with val := front addr ZNULL ws }
      else if front addr ZNULL ws = ZNULL then { ke with dup := back addr ZNULL us } else ke := ⟨_,rfl⟩
    have hkey' : ke'.key = ke.key := by
      rw [hke]
      split
      · rfl
      · split <;> rfl
    have hjoin : ws ≠ [] → back addr ZNULL (us ++ ws) = back addr ZNULL ws := fun hwn => back_append_of_ne hwn ZNULL us
    have h4 := h3.withLf { s3.ctx.lf with lfexct := false }
    obtain ⟨h5,he5⟩ := h4.setKey hf.mem i ke'
    have hpb : p.1 ≠ b := fun hpb => h.not_mem_os (h.seg p hcell.1).1 (hpb ▸ hf.mem)
    have hpl : p ∉ live.erase p := Finset.notMem_erase p live
    have hs3 := hstale3 p _ _ hpl (hstale2 p _ _ hpl hs1)
    rw [hcell.2] at hs3
    refine ⟨_,fs1,D1,_,ent3,Or.inr ⟨hnil,?_,ke',us,p,ws,rfl,hlen,⟨h5,fun q hq hqk => ?_,
      ((ha1.trans ha2).trans ha3).trans_edit (he5.ofLf rfl rfl rfl),hkey',Or.inr ⟨?_,?_,?_,?_,hkey'.symm ▸ hrest⟩⟩,?_,
        hs3.of_block ?_ ?_⟩⟩
    · have hblk : s.ctx.lf.lfblk = b := hf.blk
      have hlast : ¬ (back addr ZNULL us = ZNULL ∧ front addr ZNULL ws = ZNULL) := fun hboth =>
        hne' (by rw [hus hboth.1, hws hboth.2]; rfl)
      simp only [btdeldup, exec_bind, exec_get, Prog.Outcome.bind_done, exec_ite, haddr, if_neg hpos, hdk,
        hf.blk, hf.pos, hget, hblink, hflink, hlast, if_false, exec_pure, hdel, ne_eq, not_true_eq_false,
        hrel1, hrel2, if_true, exec_setLf, ← hke, h4.exec_putkeyent hf.mem]
    · have hqp : q ≠ p := ne_of_apply_ne (fun r => (ent r).key) (hkey.symm ▸ hqk)
      have hqe : q ∈ live.erase p := Finset.mem_erase_of_ne_of_mem hqp hq
      have hqn : q ∉ us ++ ws := fun hmem => hqk (hlive q hmem).2
      refine ⟨hqe,?_⟩
      rw [hent3 q hqe, if_neg fun heq => hqn (List.mem_append_right _ (hfrontp q hq heq).1), hent2 q hqe,
        if_neg fun heq => hqn (List.mem_append_left _ (hbackp q hq heq).1), hent1 q hqp]
    · exact hne'
    · exact (List.nodup_cons.1 (List.nodup_middle.1 hnd)).2
    · rw [hke]
      split
      · rename_i hu
        rw [hus hu]
        rfl
      · rename_i hu
        have hun : us ≠ [] := fun hnone => hu (by rw [hnone]; rfl)
        rw [front_append hun]
        rw [front_append hun] at hfront
        split <;> exact hfront
    · rw [hke]
      split
      · rename_i hu
        have hwn : ws ≠ [] := fun hnone => hne' (by rw [hus hu, hnone]; rfl)
        change ke.dup = _
        rw [hjoin hwn, hback, List.append_cons, back_append_of_ne hwn]
      · split
        · rename_i hw
          rw [hws hw, List.append_nil]
        · rename_i hw
          have hwn : ws ≠ [] := fun hnone => hw (by rw [hnone]; rfl)
          rw [hjoin hwn, hback, List.append_cons, back_append_of_ne hwn]
    · change { s3.ctx.lf with lfexct := false } = _
      rw [hctx3, hctx2, ha1.ctx]
    · exact (Disk.has_put _ _ _ _).2 hs3.has
    · exact Function.update_of_ne hpb _ _

end Dups

end Btlib
