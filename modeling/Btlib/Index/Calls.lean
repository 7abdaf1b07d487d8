import Btlib.Index.Find

namespace Btlib

open Multiway

variable [Build] {n m : Nat} {s s0 : St} {fs os : List Int} {k : Key}

section Wrap

variable {α : Type} {fn : String} {E : Op → Disk → Prop}

def St.clear (s : St) : St := { s with ctx.err := ⟨"", 0, .none⟩ }

omit [Build] in
theorem exec_api {bad : Int → α} {body : BT α} (h : s.ctx.isopen = true) :
    exec (api fn bad body) s = exec body s.clear := by
  simp [api, bvalap, h, St.clear]

theorem ends_locked {busy : α} {body : BT α} {Q : α × St → Prop} (h : s.ctx.shared = false)
    (hb : (exec body s).Ends E fun r => r.2.ctx.shared = false ∧ Q r) :
    (exec (locked fn busy body) s).Ends E Q := by
  simp only [locked, within, enter, exec_bind, exec_get, Prog.Outcome.bind_done, h,
    Bool.false_eq_true, if_false, exec_pure, if_true]
  refine hb.bind fun r hr => ?_
  simp [leave, hr.1, hr.2]

end Wrap

-- The search of `bfndky` finds the key or its gap.
theorem ends_bfndkySearch {t : KeyTree n} {key : Key} {Q : (Int × Int) × St → Prop} (hcap : 3 ≤ ZMXKEY) (hn : 0 < n)
    (h : Index s t fs os) (hwf : t.RootWf ZMXKEY) (hL : Sorted KeyEnt.key t.inorder)
    (hfuel : 2 * t.inorder.length + 3 ≤ FUEL)
    (hfound : ∀ {n m : Nat} (p : KeyPath (n + 1) m) (blk : Int) (l : List KeyEnt) (e : KeyEnt)
      (r : List KeyEnt) (ks : List (KeyTree n)) (s' : St) (fs' : List Int),
      Spot s s' (p.plug (BTree.node blk (l ++ e :: r) ks)) fs' os ⟨t,fs,keycpy key⟩ →
      e.key = keycpy key → AtKey s' p blk l e r →
      (exec (btduppos ZNEXT e.val) s').Ends (Refused s.ctx.super.scroot) fun r => Q ((0, r.1.2), r.2))
    (hmissed : ∀ {m : Nat} (f : KeyFrame 0) (p : KeyPath 1 m) (s' : St) (fs' : List Int) (v : Int),
      Spot s s' ((Path.step f p).plug BTree.nil) fs' os ⟨t,fs,keycpy key⟩ → AtGap s' f p (keycpy key) →
      Q ((QNOKEY, v), s')) :
    (exec (bfndkySearch key) s).Ends (Refused s.ctx.super.scroot) Q := by
  simp only [bfndkySearch, bstkin, bclrlf, exec_bind, exec_setStk, exec_setLf, exec_get,
    Prog.Outcome.bind_done, bfndkyLoop_eq]
  obtain ⟨s1,hs1⟩ : ∃ s1 : St, s1 = { s with ctx.stk := [], ctx.lf := ⟨keycpy key,ZNULL,ZNULL,false,ZNULL⟩ } := ⟨_,rfl⟩
  have hkeeps : Keeps s s1 os := hs1 ▸ (Keeps.refl s os).withCtx rfl rfl rfl rfl
  have herr : s1.ctx.err = s.ctx.err := by rw [hs1]
  have hroot : s1.ctx.super.scroot = s.ctx.super.scroot := hkeeps.root
  have hindex : Index s1 t fs os := hs1 ▸ h.withCtx rfl
  have hseek := ends_seek (Q := fun f => (exec (do
      if f.1.1 then
        setLf fun lf => { lf with lfexct := true }
        let r ← btduppos ZNEXT f.1.2
        return (0, r.2)
      else return (QNOKEY, f.1.2)) f.2).Ends (Refused s.ctx.super.scroot) Q)
    hcap hn hindex hwf hL hfuel (by rw [hs1]) (by rw [hs1]) (k := keycpy key) ⟨?_,?_⟩
  · rw [hroot, hs1] at hseek
    exact Prog.Outcome.Ends.bind hseek fun f hf => hf
  · intro n m p blk l e r ks s' fs' hspot he haim _ hdr
    simp only [if_true, exec_bind, exec_setLf, Prog.Outcome.bind_done, exec_pure]
    have hat : AtKey { s' with ctx.lf := { s'.ctx.lf with lfexct := true } } p blk l e r :=
      ⟨⟨⟨haim.lfkey,haim.lfblk,haim.lfpos,haim.stack,haim.depth⟩,haim.room⟩,rfl,hdr⟩
    exact Prog.Outcome.Ends.bind (hfound p blk l e r ks _ fs' ((hspot.since hkeeps herr (by rw [hs1])).withCtx rfl rfl rfl rfl rfl)
      he hat) fun _ hr => hr
  · intro m f p s' fs' v hspot hat
    simp only [Bool.false_eq_true, if_false, exec_pure, Prog.Outcome.ends_done]
    exact hmissed f p s' fs' v (hspot.since hkeeps herr (by rw [hs1])) hat

-- `bfndky` on a handle of its own finds the key or its gap.
theorem ends_bfndky {t : KeyTree n} {key : Key} {Q : (Int × Int) × St → Prop} (hcap : 3 ≤ ZMXKEY)
    (hopen : s.ctx.isopen = true) (hshared : s.ctx.shared = false) (hn : 0 < n)
    (h : Index s t fs os) (hwf : t.RootWf ZMXKEY) (hL : Sorted KeyEnt.key t.inorder)
    (hfuel : 2 * t.inorder.length + 3 ≤ FUEL)
    (hfound : ∀ {n m : Nat} (p : KeyPath (n + 1) m) (blk : Int) (l : List KeyEnt) (e : KeyEnt)
      (r : List KeyEnt) (ks : List (KeyTree n)) (s' : St) (fs' : List Int),
      Spot s.clear s' (p.plug (BTree.node blk (l ++ e :: r) ks)) fs' os ⟨t,fs,keycpy key⟩ →
      e.key = keycpy key → AtKey s' p blk l e r →
      (exec (btduppos ZNEXT e.val) s').Ends (Refused s.ctx.super.scroot) fun r =>
        r.2.ctx.shared = false ∧ Q ((r.2.ctx.err.qerror, r.1.2), r.2))
    (hmissed : ∀ {m : Nat} (f : KeyFrame 0) (p : KeyPath 1 m) (s' : St) (fs' : List Int) (v : Int),
      Spot s.clear s' ((Path.step f p).plug BTree.nil) fs' os ⟨t,fs,keycpy key⟩ → AtGap s' f p (keycpy key) →
      Q ((QNOKEY, v),
        { s' with ctx.err := ⟨"BFNDKY", QNOKEY, .key (keycpy key)⟩ })) :
    (exec (bfndky key) s).Ends (Refused s.ctx.super.scroot) Q := by
  rw [bfndky, exec_api hopen, exec_bind]
  refine Prog.Outcome.Ends.bind (P := fun r => (exec (do
      if r.1.1 ≠ 0 then bterr "BFNDKY" QNOKEY (.key (keycpy key))
      let status ← btgerr
      pure (status, r.1.2)) r.2).Ends (Refused s.ctx.super.scroot) Q) ?_ fun r hr => hr
  refine ends_locked hshared (ends_bfndkySearch hcap hn (h.withCtx rfl) hwf hL hfuel ?_ ?_)
  · intro n m p blk l e r ks s' fs' hspot he hat
    refine (hfound p blk l e r ks s' fs' hspot he hat).mono (fun _ _ h => h) fun r hr => ⟨hr.1,?_⟩
    simpa using hr.2
  · intro m f p s' fs' v hspot hat
    have herr : s'.ctx.err = ⟨"", 0, .none⟩ := hspot.err
    refine ⟨hspot.keeps.shared.trans hshared,?_⟩
    simpa [herr] using hmissed f p s' fs' v hspot hat

end Btlib
