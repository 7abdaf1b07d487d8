import Btlib.Keys.Drop
import Btlib.Keys.ErrorArg

namespace Btlib

open Multiway Links Prog

variable [Build] {m : Nat} {s s' : St} {fs D os : List Int} {nd : Int → Nat} {live : Finset (Int × Nat)}
  {ent : Int × Nat → DKey} {vals : KeyEnt → List Int} {t : KeyTree m} {e : KeyEnt} {key k : Key}

-- A handle is let out whatever its cache holds.
theorem exec_leave_any (hz : s.ctx.shared = true → s.disk.Has ZSUPER) : ∃ s', exec leave s = .done ((), s') ∧
    s'.ctx.err = s.ctx.err ∧ s'.ctx.shared = s.ctx.shared ∧ s'.disk.size = s.disk.size := by
  cases hsh : s.ctx.shared with
  | false =>
      refine ⟨s,?_,rfl,hsh,rfl⟩
      simp only [leave, exec_bind, exec_get, Prog.Outcome.bind_done, hsh, Bool.false_eq_true, if_false, exec_pure]
  | true =>
      have hun : ∀ s, exec (ask .unlock) s = .done (true, s) := fun _ => rfl
      obtain ⟨s1,hex,hc1,hd1⟩ := exec_btsync (hz hsh)
      have hsize : s1.disk.size = s.disk.size := by
        rw [hd1]
        split <;> rfl
      simp only [leave, exec_bind, exec_get, Prog.Outcome.bind_done, hsh, if_true, bulock, exec_ite]
      by_cases h1 : 1 < s.ctx.lckcnt
      · rw [if_pos h1, exec_modify]
        exact ⟨_,rfl,rfl,hsh,rfl⟩
      · rw [if_neg h1]
        by_cases h2 : s.ctx.lckcnt = 1
        · simp only [if_pos h2, hex, Prog.Outcome.bind_done, hun, not_true_eq_false, if_false, exec_modify]
          refine ⟨_,rfl,?_,?_,hsize⟩
          · rw [hc1]
          · rw [hc1]
            exact hsh
        · rw [if_neg h2]
          exact ⟨s,rfl,rfl,hsh,rfl⟩

omit [Build] in
theorem working_qdeler : Working fun c c' => c.err.qerror ≠ QDELER → c'.err.qerror ≠ QDELER where
  drift := ⟨fun _ h => h,fun h h' hc => h' (h hc)⟩
  lf _ _ h := h
  stk _ _ h := h
  keyent _ _ h := h
  err _ _ he h := he.elim (fun he => he ▸ h) id
  super _ _ h := h
  lckcnt _ _ h := h

-- The name given to `bdelk1` is that of the entry, or one it is not.
theorem Parted.exec_bdelk1Key (h : Parted s s' e) (key : Key) (hkey : keycpy e.key = keycpy key)
    (herr : s.ctx.err.qerror = 0) : exec (bdelk1Key (some key)) s' = if key.length ≤ 31 then exec (bdelk1Key none) s' else
      .done ((), { s' with ctx.keyent := e, ctx.err := ⟨"BDELK1", QDELER, .none⟩ }) := by
  have herr' : s'.ctx.err.qerror = 0 := by rw [h.ctx, herr]
  have hcmp : strcmp (keycpy key) key = 0 ↔ key.length ≤ 31 := by
    rw [strcmp_eq_zero_iff]
    refine ⟨fun heq => heq ▸ keycpy_length key,keycpy_eq⟩
  have hsrh := exec_bsrhbk_loc h.has { loc := s'.ctx.lf.lfpos } h.low h.high
  simp only [h.ent, hkey] at hsrh
  simp only [bdelk1Key, exec_bind, exec_get, Prog.Outcome.bind_done, hsrh, Option.any_some, Option.any_none, ne_eq,
    not_true_eq_false, false_or, hcmp, exec_ite]
  by_cases hl : key.length ≤ 31
  · simp [hl]
  · simp [hl, herr']

theorem exec_bdelky (ho : Open os s) (hmode : s.ctx.super.smode = 0) (key : Key) : exec (bdelky (some key)) s =
    (exec (bfndky key) s.clear.entered).bind fun r =>
      (exec (if r.1.1 = 0 then bdelk1 (some key) else pure ()) r.2).bind fun r =>
        (exec leave r.2).bind fun r => .done (r.2.ctx.err.qerror, r.2) := by
  have hclear : Open os s.clear := ho.withCtx rfl rfl rfl rfl
  have hmode : s.clear.ctx.super.smode = 0 := hmode
  rw [bdelky, modifyKey, exec_api ho.isopen]
  simp only [errOf, exec_bind, exec_get, Prog.Outcome.bind_done, exec_ite, hmode, ne_eq, not_true_eq_false,
    if_false, within, exec_enter hclear, if_true, findKey, exec_pure, exec_btgerr, Prog.Outcome.bind_assoc]

theorem exec_bdelk1 (key : Key) (hx : s.ctx.lf.lfexct = true) : exec (bdelk1 (some key)) s =
    (exec btdeldup s).bind fun r => exec (if r.1 = ZNULL then bdelk1Key (some key) else pure ()) r.2 := by
  simp only [bdelk1, exec_bind, exec_get, Prog.Outcome.bind_done, exec_ite, hx, not_true_eq_false, if_false, exec_pure]

section Delete

variable (hb : Sized) (hcap : 3 ≤ ZMXKEY) (h : Shelf s t fs D os live ent vals) (ho : Open os s)
  (hw : live = ∅ ∨ Whole s t fs D os nd live ent) (hf : 2 * t.inorder.length + 3 ≤ FUEL)
include hb hcap h ho hw hf

theorem ends_bdelky_search (key : Key) : (exec (bfndky key) s.clear.entered).Ends (Refused s.ctx.super.scroot)
    (Sighted s.clear.entered t.inorder D os nd live ent vals (keycpy key)) := by
  have ho1 : Open os s.clear.entered := (ho.withCtx (c := s.clear.ctx) rfl rfl rfl rfl).entered
  have h1 : Shelf s.clear.entered t fs D os live ent vals := h.same rfl rfl rfl
  refine ends_sighted hb hcap h1 ho1 (hw.imp_right fun hw => ⟨hw.dups.withCtx rfl,hw.super,hw.data⟩) hf key ?_
  cases hsh : s.ctx.shared with
  | false => exact Or.inl hsh
  | true =>
      have := ho.count hsh
      rw [entered_shared (s := s.clear) hsh]
      exact Or.inr (by change 0 < s.ctx.lckcnt + 1; omega)

end Delete

-- What a deletion does about the key it has searched for, with `n` more values behind the first.
inductive Going (l : List Item) (k : Key) (r : (Int × Int) × St) : Prop
  | missed (hcode : r.1.1 ≠ 0) (ht : tally k l = 0)
  | found (e : KeyEnt) (n : Nat) (s' : St) (hcode : r.1.1 = 0) (ht : tally k l = n + 1) (he : e.key = k)
      (hx : r.2.ctx.lf.lfexct = true) (herr : r.2.ctx.err.qerror = 0)
      (hex : exec btdeldup r.2 = .done (if n = 0 then ZNULL else 0, s')) (hs : n = 0 → Parted r.2 s' e)

theorem Sighted.going (hb : Sized) {l : List KeyEnt} {r : (Int × Int) × St} (hr : Sighted s l D os nd live ent vals k r) :
    Going (items vals l) k r := by
  obtain ⟨m,t,fs,h,rfl,hw,hs⟩ := hr.here
  have hval := hr.value
  rw [found] at hval
  cases h.tallied k with
  | absent hseek ht =>
      rw [hseek] at hval
      refine .missed (fun h0 => ?_) ht
      rw [h0] at hval
      have hzero : (0 : Int) = QNOKEY := congrArg Prod.fst hval
      exact absurd hzero (by decide)
  | present bs as e v vs hl he hbs hv hseek ht =>
      rw [hseek] at hval hs
      have hcode : r.1.1 = 0 := congrArg Prod.fst hval
      have herr : r.2.ctx.err.qerror = 0 := hr.code.symm.trans hcode
      obtain ⟨n,f,d,p,r',after,ps,hon⟩ := hs.first h hl he hbs hv
      have hz : r.2.ctx.shared = true → r.2.disk.Has ZSUPER := fun hsh => by
        rcases hr.isOpen.super hsh with hos | hroot
        · exact h.index.store.has_used (List.mem_append_right _ (List.mem_append_right _ hos))
        · exact hroot ▸ hr.isOpen.root
      obtain ⟨s',hex,hpart⟩ := hon.exec_btdeldup hb h hw herr hz
      refine .found e vs.length s' hcode ht he hon.onKey.exct herr ?_ fun h0 => hpart (List.eq_nil_of_length_eq_zero h0)
      rw [hex]
      simp only [List.length_eq_zero_iff]

section Cases

variable (hb : Sized) (hcap : 3 ≤ ZMXKEY) (h : Shelf s t fs D os live ent vals) (ho : Open os s)
  (hw : live = ∅ ∨ Whole s t fs D os nd live ent) (hf : 2 * t.inorder.length + 3 ≤ FUEL)
  (hmode : s.ctx.super.smode = 0)
include hb hcap h ho hw hf hmode

theorem exec_bdelky_cut (ht : tally (keycpy key) (items vals t.inorder) ≠ 1) :
    exec (bdelky (some key)) s = exec (bdelky (some (keycpy key))) s := by
  rw [exec_bdelky ho hmode, exec_bdelky ho hmode, bfndky_keycpy]
  refine (ends_bdelky_search hb hcap h ho hw hf key).bind_congr fun r hr => ?_
  cases hr.going hb with
  | missed hcode _ => rw [if_neg hcode, if_neg hcode]
  | found e n s' hcode hn _ hx _ hex _ =>
      have hn0 : ¬ n = 0 := by omega
      rw [if_pos hcode, if_pos hcode, exec_bdelk1 _ hx, exec_bdelk1 _ hx, hex, if_neg hn0]
      rfl

theorem ends_bdelky_long (ht : tally (keycpy key) (items vals t.inorder) = 1) (hl : ¬ key.length ≤ 31) :
    (exec (bdelky (some key)) s).Ends (Refused s.ctx.super.scroot) fun r => r.1 = QDELER ∧
      r.2.ctx.err.qerror = QDELER ∧ (r.2.ctx.shared = true → r.2.disk.Has ZSUPER) := by
  rw [exec_bdelky ho hmode]
  refine (ends_bdelky_search hb hcap h ho hw hf key).bind fun r hr => ?_
  cases hr.going hb with
  | missed _ h0 => omega
  | found e n s' hcode hn he hx herr hex hs =>
      obtain rfl : n = 0 := by omega
      have hpart := hs rfl
      have hkey := hpart.exec_bdelk1Key key (by rw [he, keycpy_keycpy]) herr
      rw [if_neg hl] at hkey
      rw [if_pos hcode, exec_bdelk1 _ hx, hex]
      simp only [if_true, Prog.Outcome.bind_done, hkey]
      have hz : s'.ctx.shared = true → s'.disk.Has ZSUPER := fun hsh => hpart.super (by
        rw [hpart.ctx] at hsh
        exact hsh)
      obtain ⟨s2,hex2,herr2,hsh2,hsize2⟩ := exec_leave_any (s := { s' with
        ctx.keyent := e, ctx.err := ⟨"BDELK1", QDELER, .none⟩ }) hz
      rw [hex2, Prog.Outcome.bind_done, Prog.Outcome.ends_done, herr2]
      refine ⟨rfl,rfl,fun hsh => ?_⟩
      rw [Disk.Has, hsize2]
      exact hz (hsh2 ▸ hsh)

theorem within_bdelky_short (ht : tally (keycpy key) (items vals t.inorder) = 1) (hl : key.length ≤ 31) :
    (exec (bdelky (some key)) s).Within (fun _ _ => True) fun r => r.1 ≠ QDELER ∧ r.2.ctx.err.qerror ≠ QDELER := by
  have hrest : ∀ q : Unit × St, q.2.ctx.err.qerror ≠ QDELER → ((exec leave q.2).bind fun r =>
      (.done (r.2.ctx.err.qerror, r.2) : Outcome (Int × St))).Within (fun _ _ => True) fun r =>
        r.1 ≠ QDELER ∧ r.2.ctx.err.qerror ≠ QDELER := fun q hq => by
    rw [Prog.Outcome.within_bind]
    cases hex : exec leave q.2 with
    | done r =>
        have := carries_exec (carries_leave working_qdeler) q.2 hex hq
        exact ⟨this,this⟩
    | stuck o d => trivial
    | hung => trivial
  rw [exec_bdelky ho hmode, Prog.Outcome.within_bind]
  refine (ends_bdelky_search hb hcap h ho hw hf key).within.mono (fun _ _ _ => trivial) fun r hr => ?_
  cases hr.going hb with
  | missed _ h0 => omega
  | found e n s' hcode hn he hx herr hex hs =>
      obtain rfl : n = 0 := by omega
      have hpart := hs rfl
      have hkey := hpart.exec_bdelk1Key key (by rw [he, keycpy_keycpy]) herr
      rw [if_pos hl] at hkey
      rw [if_pos hcode, exec_bdelk1 _ hx, hex]
      simp only [if_true, Prog.Outcome.bind_done, hkey]
      have herr' : s'.ctx.err.qerror ≠ QDELER := by
        rw [hpart.ctx, herr]
        decide
      cases hdel : exec (bdelk1Key none) s' with
      | done q => exact hrest q (carries_exec (carries_bdelk1Key working_qdeler) s' hdel herr')
      | stuck o d => trivial
      | hung => trivial

end Cases

end Btlib
