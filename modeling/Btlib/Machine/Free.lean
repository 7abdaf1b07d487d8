import Btlib.Index.Refine

namespace Btlib

-- The plain machine, but one that goes on whatever is reported.
def frank : Prog.Machine Op Res Disk
  | .report _ _, d => some ((), d)
  | o, d => plain o d

variable {α : Type}

def speak (x : BT α) (s : St) : Outcome (α × St) :=
  ((x s.ctx).run frank s.disk).map fun r => (r.1.1, ⟨r.1.2, r.2⟩)

theorem frank_of_plain {o : Op} {d : Disk} {r : Res o × Disk} (h : plain o d = some r) : frank o d = some r := by
  cases o with
  | report name code =>
      simp only [plain] at h
      split at h
      · exact absurd h (by simp)
      · exact h
  | _ => exact h

theorem run_frank (p : Prog Op Res α) {d : Disk} {r : α × Disk} (h : p.run plain d = .done r) :
    p.run frank d = .done r := by
  induction p generalizing d with
  | ret a => exact h
  | hang => exact h
  | op o k ih =>
      simp only [Prog.run] at h ⊢
      cases hr : plain o d with
      | none => simp [hr] at h
      | some q =>
          rw [hr] at h
          rw [frank_of_plain hr]
          exact ih q.1 h

theorem speak_of_exec {x : BT α} {s : St} {r : α × St} (h : exec x s = .done r) : speak x s = .done r := by
  unfold exec at h
  unfold speak
  cases hrun : (x s.ctx).run plain s.disk with
  | done a =>
      rw [hrun] at h
      rw [run_frank _ hrun]
      exact h
  | stuck o d =>
      rw [hrun] at h
      exact absurd h (by simp [Prog.Outcome.map])
  | hung =>
      rw [hrun] at h
      exact absurd h (by simp [Prog.Outcome.map])

section Free

variable [Build] {s : St} {fs used : List Int} {blk : Int}

-- There is no room in the file for the block after the last.
def St.Full (s : St) : Prop :=
  wrap (s.ctx.super.sblkmx * ZBLKSZ + ZBLKSZ) < 0 ∨ BTINT_MAX ≤ wrap (s.ctx.super.sblkmx * ZBLKSZ + ZBLKSZ)

theorem speak_bgtfre_full (hp : s.ctx.super.sfreep = ZNULL) (hf : s.Full) :
    speak bgtfre s = .done (ZNULL, { s with ctx.err :=
      if s.ctx.err.qerror = 0 then ⟨"BGTFRE",QF2BIG,.none⟩ else s.ctx.err }) := by
  unfold St.Full at hf
  have hprog : bgtfre s.ctx = (do bterr "BGTFRE" QF2BIG .none; return ZNULL : BT Int) s.ctx := by
    change (if s.ctx.super.sfreep = ZNULL then _ else _ : BT Int) s.ctx = _
    rw [if_pos hp]
    rw [if_pos hf]
  unfold speak
  rw [hprog]
  rfl

theorem exec_bgtfre_grow (hp : s.ctx.super.sfreep = ZNULL) (hf : ¬ s.Full) :
    exec bgtfre s = .done (s.ctx.super.sblkmx, { s with
      ctx.super := { s.ctx.super with sblkmx := s.ctx.super.sblkmx + 1, smod := s.ctx.super.smod + 1 }
      disk := s.disk.grow s.ctx.super.sblkmx }) := by
  unfold St.Full at hf
  have hgrow : exec (ask (.grow s.ctx.super.sblkmx)) s =
      .done (Grown.ok, { s with disk := s.disk.grow s.ctx.super.sblkmx }) := rfl
  simp only [bgtfre, exec_bind, exec_get, Prog.Outcome.bind_done, exec_ite, if_pos hp]
  rw [if_neg hf]
  simp only [hgrow, Prog.Outcome.bind_done, exec_bind, exec_setSuper, exec_pure]

theorem exec_bgtfre_listed {b : Int} (hp : s.ctx.super.sfreep = b) (hb : s.disk.Has b)
    (htype : (s.disk.block b).btype = ZFREE) :
    exec bgtfre s = .done (b, { s with ctx.super := { s.ctx.super with
      sfreep := (s.disk.block b).nxblk, snfree := s.ctx.super.snfree - 1, smod := s.ctx.super.smod + 1 } }) := by
  subst hp
  simp only [bgtfre, exec_bind, exec_get, Prog.Outcome.bind_done, exec_ite, if_neg hb.ne_null, exec_brdblk,
    Disk.read_eq hb, exec_bgtinf hb, Block.getInf_ZBTYPE, htype, ne_eq, not_true_eq_false, if_false,
    Block.getInf_ZNXBLK, exec_setSuper, exec_pure, if_pos hb.1]

-- The file once the root no longer names `blk` as the block its duplicates go to.
def St.disowned (s : St) (blk : Int) : Disk :=
  if (s.disk.block blk).btype = ZDUP ∧ (s.disk.block s.ctx.super.scroot).nxdup = blk then
    s.disk.put s.ctx.super.scroot ((s.disk.block s.ctx.super.scroot).setInf .ZNXDUP ZNULL)
  else s.disk

theorem exec_bmkfre_eq (hb : s.disk.Has blk) (hr : s.disk.Has s.ctx.super.scroot) :
    exec (bmkfre blk) s = .done ((), {
      ctx := { s.ctx with super := { s.ctx.super with
        sfreep := blk, snfree := s.ctx.super.snfree + 1, smod := s.ctx.super.smod + 1 } }
      disk := (s.disowned blk).put blk
        (((s.disowned blk).block blk).setBk ZFREE 0 s.ctx.super.sfreep 0 0 ZNULL) }) := by
  simp only [bmkfre, exec_bind, exec_get, Prog.Outcome.bind_done, exec_bgtinf hb, Block.getInf_ZBTYPE, exec_ite]
  by_cases htype : (s.disk.block blk).btype = ZDUP
  · by_cases hdup : (s.disk.block s.ctx.super.scroot).nxdup = blk
    · have hown : s.disowned blk =
          s.disk.put s.ctx.super.scroot ((s.disk.block s.ctx.super.scroot).setInf .ZNXDUP ZNULL) :=
        if_pos ⟨htype,hdup⟩
      simp only [if_pos htype, exec_bgtinf hr, Block.getInf_ZNXDUP, Prog.Outcome.bind_done, if_pos hdup,
        exec_bstinf hr]
      rw [← hown, exec_bsetbk (s := ⟨s.ctx,s.disowned blk⟩) (by rwa [hown])]
      rfl
    · have hown : s.disowned blk = s.disk := if_neg fun h => hdup h.2
      simp only [if_pos htype, exec_bgtinf hr, Block.getInf_ZNXDUP, Prog.Outcome.bind_done, if_neg hdup,
        exec_bsetbk hb, exec_setSuper, hown]
  · have hown : s.disowned blk = s.disk := if_neg fun h => htype h.1
    simp only [if_neg htype, Prog.Outcome.bind_done, exec_bsetbk hb, exec_setSuper, hown]

-- The free blocks `fs` are those the list goes through, and the super block counts them.
structure Ledger (s : St) (fs used : List Int) : Prop extends Store s fs used where
  count : s.ctx.super.snfree = fs.length
  root : s.disk.Has s.ctx.super.scroot
  unnamed : ∀ b ∈ fs, (s.disk.block b).nxdup = ZNULL

-- What the calls do to the blocks in use and those that are free; between two of them the blocks in use are
-- written.
inductive FreeCall where
  | take
  | give (blk : Int)
  | write (blk : Int) (b : Block)

namespace FreeCall

def code : FreeCall → BT Int
  | take => bgtfre
  | give blk => do
      bmkfre blk
      return 0
  | write blk b => do
      wr blk b 1
      return 0

-- Only a block in use is given back or written.
def Legal (used : List Int) : FreeCall → Prop
  | take => True
  | give blk => blk ∈ used
  | write blk _ => blk ∈ used

-- The blocks given back and not taken again, after a call that answers `r`.
def free (fs : List Int) (r : Int) : FreeCall → List Int
  | take => fs.erase r
  | give blk => blk :: fs
  | write _ _ => fs

def held (used : List Int) (r : Int) : FreeCall → List Int
  | take => if r = ZNULL then used else r :: used
  | give blk => used.erase blk
  | write _ _ => used

-- A block that is taken is none in use, and is new only when no other is free.
structure Sound (c : FreeCall) (fs used : List Int) (r : Int) (s s' : St) : Prop where
  unused : c = take → r ∉ used
  listed : c = take → fs ≠ [] → r ∈ fs
  refused : c = take → r = ZNULL → fs = [] ∧ s.Full
  grows : s'.ctx.super.sblkmx ≠ s.ctx.super.sblkmx → c = take ∧ fs = []

end FreeCall

namespace Ledger

omit [Build] in
theorem write (h : Ledger s fs used) (hb : blk ∈ used) (b : Block) :
    Ledger { s with disk := s.disk.put blk b } fs used where
  toStore := h.toStore.put hb b
  count := h.count
  root := h.root
  unnamed c hc := by
    change (Function.update s.disk.block blk b c).nxdup = ZNULL
    rw [Function.update_of_ne (ne_of_mem_of_not_mem hc (h.toStore.not_mem_free hb))]
    exact h.unnamed c hc

theorem disowned (h : Ledger s fs used) (hb : blk ∈ used) : Ledger ⟨s.ctx,s.disowned blk⟩ fs used := by
  unfold St.disowned
  split
  · rename_i hdup
    have hfree : s.ctx.super.scroot ∉ fs := fun hmem => by
      have hnull := h.unnamed _ hmem
      rw [hdup.2] at hnull
      exact (h.toStore.has_used hb).ne_null hnull
    refine ⟨h.toStore.transfer rfl (fun c hc => ?_) rfl rfl,h.count,h.root,fun c hc => ?_⟩
    · exact Function.update_of_ne (ne_of_mem_of_not_mem hc hfree) _ _
    · change (Function.update s.disk.block s.ctx.super.scroot _ c).nxdup = ZNULL
      rw [Function.update_of_ne (ne_of_mem_of_not_mem hc hfree)]
      exact h.unnamed c hc
  · exact h

theorem give (h : Ledger s fs used) (hb : blk ∈ used) :
    Ledger ⟨{ s.ctx with super := { s.ctx.super with
        sfreep := blk, snfree := s.ctx.super.snfree + 1, smod := s.ctx.super.smod + 1 } },
      s.disk.put blk ((s.disk.block blk).setBk ZFREE 0 s.ctx.super.sfreep 0 0 ZNULL)⟩ (blk :: fs) (used.erase blk) := by
  have hfree := h.toStore.not_mem_free hb
  have hperm : (fs ++ used).Perm (blk :: fs ++ used.erase blk) :=
    ((List.perm_cons_erase hb).append_left fs).trans List.perm_middle
  have hupd : ∀ c ∈ fs, Function.update s.disk.block blk
      ((s.disk.block blk).setBk ZFREE 0 s.ctx.super.sfreep 0 0 ZNULL) c = s.disk.block c := fun c hc =>
    Function.update_of_ne (ne_of_mem_of_not_mem hc hfree) _ _
  refine ⟨⟨⟨rfl,?_,?_⟩,hperm.nodup_iff.1 h.nodup,fun c hc => h.has c (hperm.mem_iff.2 hc),h.size,h.size_nonneg⟩,?_,
    h.root,fun c hc => ?_⟩
  · simp [Block.setBk, Block.setInf]
  · simp only [Disk.block_put, Function.update_self]
    exact h.chain.congr hupd
  · simp only [h.count, List.length_cons]
    push_cast
    rfl
  · rcases List.mem_cons.1 hc with rfl | hc
    · simp [Block.setBk]
    · change (Function.update s.disk.block blk _ c).nxdup = ZNULL
      rw [hupd c hc]
      exact h.unnamed c hc

omit [Build] in
theorem listed {b : Int} (h : Ledger s (b :: fs) used) :
    Ledger { s with ctx.super := { s.ctx.super with
      sfreep := (s.disk.block b).nxblk, snfree := s.ctx.super.snfree - 1, smod := s.ctx.super.smod + 1 } }
      fs (b :: used) := by
  obtain ⟨-,-,hchain⟩ := h.chain
  refine ⟨⟨hchain,List.perm_middle.nodup_iff.2 h.nodup,fun c hc => h.has c (List.perm_middle.mem_iff.1 hc),h.size,
    h.size_nonneg⟩,?_,h.root,fun c hc => h.unnamed c (List.mem_cons_of_mem _ hc)⟩
  simp only [h.count, List.length_cons]
  push_cast
  omega

omit [Build] in
theorem grow (h : Ledger s [] used) :
    Ledger { s with
      ctx.super := { s.ctx.super with sblkmx := s.ctx.super.sblkmx + 1, smod := s.ctx.super.smod + 1 }
      disk := s.disk.grow s.ctx.super.sblkmx } [] (s.ctx.super.sblkmx :: used) := by
  have hsize : (s.disk.grow s.ctx.super.sblkmx).size = s.disk.size + 1 := by
    simp only [Disk.grow, h.size]
    omega
  have hnn := h.size_nonneg
  refine ⟨⟨h.chain,?_,fun c hc => ?_,?_,?_⟩,h.count,?_,fun c hc => absurd hc List.not_mem_nil⟩
  · refine List.nodup_cons.2 ⟨fun hmem => ?_,h.toStore.nodup_used⟩
    have := (h.toStore.has_used hmem).2
    rw [h.size] at this
    exact lt_irrefl _ this
  · simp only [Disk.Has, hsize]
    rcases List.mem_cons.1 hc with rfl | hc
    · rw [h.size]
      omega
    · have := h.toStore.has_used hc
      simp only [Disk.Has] at this
      omega
  · exact (congrArg (· + 1) h.size).trans hsize.symm
  · simp only [hsize]
    omega
  · have := h.root
    simp only [Disk.Has, hsize] at this ⊢
    omega

theorem call (h : Ledger s fs used) (c : FreeCall) (hc : c.Legal used) :
    ∃ r s', speak c.code s = .done (r, s') ∧ c.Sound fs used r s s' ∧ Ledger s' (c.free fs r) (c.held used r) := by
  cases c with
  | take =>
      cases fs with
      | nil =>
          by_cases hf : s.Full
          · refine ⟨_,_,speak_bgtfre_full h.chain hf,⟨fun _ hmem => (h.toStore.has_used hmem).ne_null rfl,
              fun _ hne => absurd rfl hne,fun _ _ => ⟨rfl,hf⟩,fun hne => absurd rfl hne⟩,?_⟩
            rw [FreeCall.held, if_pos rfl]
            exact ⟨h.toStore.withCtx rfl,h.count,h.root,h.unnamed⟩
          · have hmax : s.ctx.super.sblkmx ≠ ZNULL := by
              have h0 := h.size_nonneg
              have h1 := h.size
              change s.ctx.super.sblkmx ≠ -1
              omega
            refine ⟨_,_,speak_of_exec (exec_bgtfre_grow h.chain hf),⟨fun _ hmem => ?_,
              fun _ hne => absurd rfl hne,fun _ hr => absurd hr hmax,fun _ => ⟨rfl,rfl⟩⟩,?_⟩
            · have := (h.toStore.has_used hmem).2
              rw [h.size] at this
              exact lt_irrefl _ this
            · rw [FreeCall.held, if_neg hmax]
              exact h.grow
      | cons b fs =>
          obtain ⟨hp,htype,-⟩ := h.chain
          have hb : s.disk.Has b := h.has b List.mem_cons_self
          refine ⟨_,_,speak_of_exec (exec_bgtfre_listed hp hb htype),⟨fun _ hmem => ?_,
            fun _ _ => List.mem_cons_self,fun _ hr => absurd hr hb.ne_null,fun hne => absurd rfl hne⟩,?_⟩
          · exact h.toStore.not_mem_free hmem List.mem_cons_self
          · rw [FreeCall.held, if_neg hb.ne_null, FreeCall.free, List.erase_cons_head]
            exact h.listed
  | give blk =>
      have hexec : exec (FreeCall.give blk).code s = .done (0, ⟨{ s.ctx with super := { s.ctx.super with
          sfreep := blk, snfree := s.ctx.super.snfree + 1, smod := s.ctx.super.smod + 1 } },
          (s.disowned blk).put blk (((s.disowned blk).block blk).setBk ZFREE 0 s.ctx.super.sfreep 0 0 ZNULL)⟩) := by
        simp only [FreeCall.code, exec_bind, exec_bmkfre_eq (h.toStore.has_used hc) h.root, Prog.Outcome.bind_done,
          exec_pure]
      refine ⟨_,_,speak_of_exec hexec,⟨fun heq => by simp at heq,fun heq => by simp at heq,fun heq => by simp at heq,
        fun hne => absurd rfl hne⟩,?_⟩
      exact (h.disowned hc).give hc
  | write blk b =>
      refine ⟨0,{ s with disk := s.disk.put blk b },speak_of_exec ?_,⟨fun heq => by simp at heq,
        fun heq => by simp at heq,fun heq => by simp at heq,fun hne => absurd rfl hne⟩,h.write hc b⟩
      simp only [FreeCall.code, exec_bind, exec_wr, Prog.Outcome.bind_done, exec_pure]

end Ledger

-- The states the calls lead to, with the blocks that are free and in use by what they were called with and
-- answered.
inductive Leads (s0 : St) (fs0 used0 : List Int) : St → List Int → List Int → Prop where
  | start : Leads s0 fs0 used0 s0 fs0 used0
  | step {s s' : St} {fs used : List Int} {c : FreeCall} {r : Int} (h : Leads s0 fs0 used0 s fs used)
      (hc : c.Legal used) (hr : speak c.code s = .done (r, s')) :
      Leads s0 fs0 used0 s' (c.free fs r) (c.held used r)

-- Whatever the calls and their order, the ledger is kept, and every further call ends as it should.
theorem ledger_of_leads {s0 : St} {fs0 used0 : List Int} (h0 : Ledger s0 fs0 used0)
    (h : Leads s0 fs0 used0 s fs used) :
    Ledger s fs used ∧ ∀ c : FreeCall, c.Legal used →
      ∃ r s', speak c.code s = .done (r, s') ∧ c.Sound fs used r s s' := by
  have hkeep : Ledger s fs used := by
    induction h with
    | start => exact h0
    | @step s s' fs used c r _ hc hr ih =>
        obtain ⟨r',s'',hr',-,hl⟩ := ih.call c hc
        obtain ⟨rfl,rfl⟩ : r' = r ∧ s'' = s' := by simpa [hr] using hr'.symm.trans hr
        exact hl
  refine ⟨hkeep,fun c hc => ?_⟩
  obtain ⟨r,s',hr,hsound,-⟩ := hkeep.call c hc
  exact ⟨r,s',hr,hsound⟩

end Free

section Run

attribute [local instance] smallBuild

theorem ledger_fresh : Ledger St.fresh [] [1,0] := by
  refine ⟨⟨rfl,by decide,fun b hb => ?_,rfl,by decide⟩,rfl,⟨by decide,by decide⟩,fun b hb => absurd hb List.not_mem_nil⟩
  have hb : b = 1 ∨ b = 0 := by simpa using hb
  rcases hb with rfl | rfl <;> exact ⟨by decide,by decide⟩

-- A block is taken, given back, and taken once more.
theorem ledger_of_leads_again :
    ∃ s, Leads St.fresh [] [1,0] s [] [2,1,0] ∧ Ledger s [] [2,1,0] ∧
      ∃ r s', speak FreeCall.take.code s = .done (r, s') ∧ r ∉ [2,1,0] := by
  have hfull : ¬ St.fresh.Full := by
    unfold St.Full
    decide
  have h0 : Leads St.fresh [] [1,0] St.fresh [] [1,0] := .start
  have h1 := h0.step (c := .take) trivial (speak_of_exec (exec_bgtfre_grow (s := St.fresh) rfl hfull))
  have h2 := h1.step (c := .give 2) (show (2 : Int) ∈ [2,1,0] by decide) rfl
  have h3 := h2.step (c := .take) trivial rfl
  obtain ⟨hl,hnext⟩ := ledger_of_leads ledger_fresh h3
  obtain ⟨r,s',hr,hsound⟩ := hnext .take trivial
  exact ⟨_,h3,hl,r,s',hr,hsound.unused rfl⟩

end Run

end Btlib
