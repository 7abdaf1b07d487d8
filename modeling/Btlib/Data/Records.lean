import Btlib.Data.Update
import Btlib.Data.Read
import Btlib.Dups.Runs

namespace Btlib

section Calls

variable [Build] {s s' : St} {fs D os : List Int} {ps rs rs' lost : List Seg} {others recs : List (List Seg)} {p : Seg}
  {live live' : Int → Option (List Byte)} {data : List Byte} {a b r : Int} {E : Op → Disk → Prop} {n : Nat}

-- What the calls on records have to go by: the data of each live record, by its address.
abbrev Live : Type := Int → Option (List Byte)

inductive DataCall where
  | insert (data : List Byte)
  | update (draddr : Int) (data : List Byte)
  | delete (draddr : Int)

namespace DataCall

def run : DataCall → BT Int
  | insert data => binsdt ZDATA data
  | update draddr data => bupddt draddr data
  | delete draddr => bdeldt draddr

-- The live records after the call, which has returned `r`.
def after (live : Live) (r : Int) : DataCall → Live
  | insert data => Function.update live r (some data)
  | update draddr data => Function.update live draddr (some data)
  | delete draddr => Function.update live draddr none

-- The call is on a live record, and the data not too long for the turns of the loops.
def Meets (live : Live) : DataCall → Prop
  | insert data => 2 * data.length + 3 ≤ FUEL
  | update draddr data => live draddr ≠ none ∧ 2 * data.length + 3 ≤ FUEL
  | delete draddr => live draddr ≠ none

-- What the call returns: the address of the new record, which no other has, or the code.
def Returns (live : Live) (code r : Int) : DataCall → Prop
  | insert _ => r ≠ ZNULL ∧ live r = none
  | update _ _ => r = code
  | delete _ => r = 0

end DataCall

-- The calls of a run, each on a record that is live by then.
inductive Reaches : St → Live → St → Live → Prop where
  | start (s : St) (live : Live) : Reaches s live s live
  | step {s s1 s2 : St} {live live1 : Live} {r : Int} (call : DataCall) (h : Reaches s live s1 live1)
      (hcall : call.Meets live1) (hex : exec call.run s1 = .done (r, s2)) : Reaches s live s2 (call.after live1 r)

-- Every live record is read back as it was last written, and nothing changes on reading.
def ReadsBack (s : St) (live : Live) : Prop :=
  ∀ draddr data, live draddr = some data →
    (∀ dsize : Int, exec (bseldt draddr dsize) s =
      .done ((((data.take dsize.toNat).length : Int), data.take dsize.toNat), s)) ∧
    exec (brecsz draddr) s = .done ((data.length : Int), s)

-- The segments of a record.
structure IsRec (s : St) (rs : List Seg) : Prop where
  ne_nil : rs ≠ []
  chain : Seg.Chain s rs
  tight : Tight rs
  fuel : 2 * (content rs).length + 3 ≤ FUEL

-- The records `recs` are the live ones.
def Named (recs : List (List Seg)) (live : Live) : Prop :=
  ∀ draddr data, live draddr = some data ↔ ∃ rs ∈ recs, headAddr rs = draddr ∧ content rs = data

-- The file holds the live records; `lost` are segments that no record has any more.
def Records (s : St) (live : Live) : Prop :=
  ∃ fs D os recs lost, Stored s fs D os (recs.flatten ++ lost) ∧ (∀ rs ∈ recs, IsRec s rs) ∧ Named recs live

theorem IsRec.spared (h : IsRec s rs) (hs : Spared s s' rs) : IsRec s' rs := ⟨h.ne_nil,h.chain.spared hs,h.tight,h.fuel⟩

theorem IsRec.turns (h : IsRec s rs) : rs.length + 2 ≤ FUEL := by
  have h1 := h.tight.length_le
  have h2 := h.fuel
  omega

theorem Named.add (h : Named others live) (rs : List Seg) (hne : ∀ rs' ∈ others, headAddr rs' ≠ headAddr rs) :
    Named (rs :: others) (Function.update live (headAddr rs) (some (content rs))) := by
  intro draddr data
  rcases eq_or_ne draddr (headAddr rs) with rfl | hdr
  · rw [Function.update_self, Option.some.injEq]
    constructor
    · rintro rfl
      exact ⟨rs,List.mem_cons_self,rfl,rfl⟩
    · rintro ⟨rs',hmem,haddr,rfl⟩
      rcases List.mem_cons.1 hmem with rfl | hmem
      · rfl
      · exact absurd haddr (hne rs' hmem)
  · rw [Function.update_of_ne hdr, h draddr data]
    constructor
    · rintro ⟨rs',hmem,hrs'⟩
      exact ⟨rs',List.mem_cons_of_mem _ hmem,hrs'⟩
    · rintro ⟨rs',hmem,haddr,hcont⟩
      rcases List.mem_cons.1 hmem with rfl | hmem
      · exact absurd haddr.symm hdr
      · exact ⟨rs',hmem,haddr,hcont⟩

theorem Named.remove (h : Named (rs :: others) live) (hne : ∀ rs' ∈ others, headAddr rs' ≠ headAddr rs) :
    Named others (Function.update live (headAddr rs) none) := by
  intro draddr data
  rcases eq_or_ne draddr (headAddr rs) with rfl | hdr
  · rw [Function.update_self]
    constructor
    · exact nofun
    · rintro ⟨rs',hmem,haddr,-⟩
      exact absurd haddr (hne rs' hmem)
  · rw [Function.update_of_ne hdr, h draddr data]
    constructor
    · rintro ⟨rs',hmem,haddr,hcont⟩
      rcases List.mem_cons.1 hmem with rfl | hmem
      · exact absurd haddr.symm hdr
      · exact ⟨rs',hmem,haddr,hcont⟩
    · rintro ⟨rs',hmem,hrs'⟩
      exact ⟨rs',List.mem_cons_of_mem _ hmem,hrs'⟩

omit [Build] in
theorem mem_of_mem_rec (hrs : rs ∈ recs) (hp : p ∈ rs) : p ∈ recs.flatten ++ lost :=
  List.mem_append_left _ (List.mem_flatten.2 ⟨rs,hrs,hp⟩)

theorem Stored.headAddr_others (h : Stored s fs D os (rs ++ (others.flatten ++ lost))) (hrs : rs ≠ [])
    (hothers : ∀ rs' ∈ others, rs' ≠ []) : ∀ rs' ∈ others, headAddr rs' ≠ headAddr rs := by
  intro rs' hmem
  obtain ⟨p,rs,rfl⟩ := List.exists_cons_of_ne_nil hrs
  obtain ⟨q,qs,rfl⟩ := List.exists_cons_of_ne_nil (hothers rs' hmem)
  have hq : q ∈ others.flatten ++ lost := mem_of_mem_rec hmem List.mem_cons_self
  have hpq := (List.pairwise_append.1 h.apart).2.2 p List.mem_cons_self q hq
  exact h.addr_ne (List.mem_append_left _ List.mem_cons_self) (List.mem_append_right _ hq) hpq

theorem Records.focus (h : Records s live) (hlive : live a ≠ none) : ∃ fs D os rs others lost,
    Stored s fs D os (rs ++ (others.flatten ++ lost)) ∧ IsRec s rs ∧ (∀ rs' ∈ others, IsRec s rs') ∧
      headAddr rs = a ∧ live a = some (content rs) ∧ Named (rs :: others) live := by
  obtain ⟨fs,D,os,recs,lost,hst,hrec,hnamed⟩ := h
  obtain ⟨data,hdata⟩ := Option.ne_none_iff_exists'.1 hlive
  obtain ⟨rs,hmem,haddr,hcont⟩ := (hnamed a data).1 hdata
  obtain ⟨us,vs,rfl⟩ := List.append_of_mem hmem
  refine ⟨fs,D,os,rs,us ++ vs,lost,hst.perm ?_,hrec rs hmem,fun rs' hrs' => hrec rs' ?_,haddr,
    hcont ▸ hdata,fun d l => ?_⟩
  · rw [← List.append_assoc]
    refine List.Perm.append_right _ ?_
    have hflat : rs ++ (us ++ vs).flatten = (rs :: (us ++ vs)).flatten := rfl
    rw [hflat]
    exact List.perm_middle.flatten
  · rcases List.mem_append.1 hrs' with hu | hv
    · exact List.mem_append_left _ hu
    · exact List.mem_append_right _ (List.mem_cons_of_mem _ hv)
  · rw [hnamed d l]
    refine exists_congr fun rs' => and_congr_left' ?_
    exact List.perm_middle.mem_iff

theorem Records.readsBack (hz : SizedData) (h : Records s live) : ReadsBack s live := by
  intro draddr data hdata
  have hne : live draddr ≠ none := by simp [hdata]
  obtain ⟨fs,D,os,rs,others,lost,hst,hrec,-,rfl,hlive,-⟩ := h.focus hne
  obtain rfl : content rs = data := Option.some.inj (hlive.symm.trans hdata)
  have hturns := hrec.turns
  refine ⟨fun dsize => ?_,?_⟩
  · have := exec_bseldtLoop hz hst (fun p hp => List.mem_append_left _ hp) hrec.chain (n := FUEL) (by omega) dsize []
    exact this
  · have := exec_brecszLoop hz hst (List.sublist_append_left _ _) hrec.chain (n := FUEL) (by omega) 0
    rwa [zero_add] at this

theorem Records.ends_call (hz : SizedData) (h : Records s live) (call : DataCall) (hcall : call.Meets live) :
    (exec call.run s).Ends NoBlock fun r => Records r.2 (call.after live r.1) ∧ call.Returns live r.2.ctx.err.qerror r.1 := by
  have hE : ∀ o d, NoBlock o d → NoBlock o d := fun _ _ h => h
  cases call with
  | insert data =>
      obtain ⟨fs,D,os,recs,lost,hst,hrec,hnamed⟩ := h
      have hcall : 2 * data.length + 3 ≤ FUEL := hcall
      refine (hst.ends_binsdt hz hE data (by omega)).mono (fun _ _ h => h) fun x hx => ?_
      obtain ⟨q,qs,fs',D',haddr,hst',hc,hcont,-,htight,hsp,hbe⟩ := hx
      have hne := hst'.headAddr_others (List.cons_ne_nil q qs) fun rs' hrs' => (hrec rs' hrs').ne_nil
      have hhead : headAddr (q :: qs) = x.1 := haddr.symm
      have hnamed' := hnamed.add (q :: qs) hne
      rw [hhead, hcont] at hnamed'
      refine ⟨⟨fs',D',os,(q :: qs) :: recs,lost,?_,fun rs' hrs' => ?_,hnamed'⟩,?_,?_⟩
      · rwa [List.flatten_cons, List.append_assoc]
      · rcases List.mem_cons.1 hrs' with rfl | hrs'
        · exact ⟨List.cons_ne_nil _ _,hc,htight,by rw [hcont]; exact hcall⟩
        · exact (hrec rs' hrs').spared (hsp.subset fun p hp => mem_of_mem_rec hrs' hp)
      · have hpos := hst'.addr_pos (p := q) (by simp)
        have hnull : ZNULL = -1 := rfl
        rw [haddr, hnull]
        omega
      · cases hl : live x.1 with
        | none => rfl
        | some l =>
            obtain ⟨rs',hrs',haddr',-⟩ := (hnamed x.1 l).1 hl
            exact absurd (haddr'.trans hhead.symm) (hne rs' hrs')
  | update draddr data =>
      obtain ⟨hlive,hfuel⟩ := hcall
      obtain ⟨fs,D,os,rs,others,lost,hst,hrec,hothers,rfl,-,hnamed⟩ := h.focus hlive
      have hne := hst.headAddr_others hrec.ne_nil fun rs' hrs' => (hothers rs' hrs').ne_nil
      refine (ends_bupddt hz hE hst hrec.chain hrec.ne_nil hrec.tight hrec.turns (l := data) (by omega)).mono
        (fun _ _ h => h) fun x hx => ?_
      obtain ⟨kept,lost',fs',D',hcode,hhead,hkne,hst',hc,hcont,htight,hsp,hbe⟩ := hx
      have hnamed' := (hnamed.remove hne).add kept (by rwa [hhead])
      rw [hhead, hcont, Function.update_idem] at hnamed'
      refine ⟨⟨fs',D',os,kept :: others,lost ++ lost',?_,fun rs' hrs' => ?_,hnamed'⟩,hcode⟩
      · refine hst'.perm ?_
        rw [List.flatten_cons, List.append_assoc]
        refine List.Perm.append_left _ ?_
        exact List.perm_append_comm.trans (List.append_assoc _ _ _ ▸ List.Perm.refl _)
      · rcases List.mem_cons.1 hrs' with rfl | hrs'
        · exact ⟨hkne,hc,htight,by rw [hcont]; exact hfuel⟩
        · exact (hothers rs' hrs').spared (hsp.subset fun p hp => mem_of_mem_rec hrs' hp)
  | delete draddr =>
      obtain ⟨fs,D,os,rs,others,lost,hst,hrec,hothers,rfl,-,hnamed⟩ := h.focus hcall
      have hne := hst.headAddr_others hrec.ne_nil fun rs' hrs' => (hothers rs' hrs').ne_nil
      have hturns := hrec.turns
      obtain ⟨s',fs',D',hex,hst',hsp,hbe⟩ := exec_bdeldtLoop hz hst hrec.chain (n := FUEL) (by omega)
      have hdel : exec (DataCall.delete (headAddr rs)).run s = .done (0, s') := hex
      rw [hdel, Prog.Outcome.ends_done]
      exact ⟨⟨fs',D',os,others,lost,hst',fun rs' hrs' => (hothers rs' hrs').spared
        (hsp.subset fun p hp => mem_of_mem_rec hrs' hp),hnamed.remove hne⟩,rfl⟩

theorem Records.reaches (hz : SizedData) (h : Records s live) (hr : Reaches s live s' live') : Records s' live' := by
  induction hr with
  | start => exact h
  | step call hr hcall hex ih =>
      have hends := (ih h).ends_call hz call hcall
      rw [hex] at hends
      exact hends.1

-- Whatever is written, rewritten and deleted, each live record reads back what was last written to it.
theorem records_read_back (hz : SizedData) (h : Records s live) (hr : Reaches s live s' live') :
    ReadsBack s' live' ∧ ∀ call : DataCall, call.Meets live' → (exec call.run s').Ends NoBlock fun r =>
      ReadsBack r.2 (call.after live' r.1) ∧ call.Returns live' r.2.ctx.err.qerror r.1 := by
  have h' := h.reaches hz hr
  exact ⟨h'.readsBack hz,fun call hcall => (h'.ends_call hz call hcall).mono (fun _ _ h => h) fun r hr =>
    ⟨hr.1.readsBack hz,hr.2⟩⟩

theorem records_none (hst : Store s fs os) (hsize : s.disk.size * ZBLKSZ ≤ BTINT_MAX) (hsuper : ZSUPER ∈ os)
    (hroot : s.ctx.super.scroot ∈ os) (hnx : (s.disk.block s.ctx.super.scroot).nxblk = ZNULL) :
    Records s fun _ => none := by
  refine ⟨fs,[],os,[],[],⟨hst,hsize,hsuper,hroot,nofun,?_,Or.inl hnx,nofun,List.Pairwise.nil⟩,nofun,fun d l => ?_⟩
  · exact ⟨nofun,nofun⟩
  · simp

end Calls

section Run

attribute [local instance] smallBuild

theorem sizedData_small : SizedData := ⟨sized_small,by decide⟩

theorem records_fresh : Records St.fresh fun _ => none := by
  have hst : Store St.fresh [] [1,0] := ⟨rfl,by decide,?_,rfl,by decide⟩
  · exact records_none hst (by decide) (by decide) (by decide) rfl
  intro b hb
  have hb : b = 1 ∨ b = 0 := by simpa using hb
  rcases hb with rfl | rfl <;> exact ⟨by decide,by decide⟩

attribute [local irreducible] exec

theorem records_read_back_fresh : (exec (do
    let draddr ← binsdt ZDATA [1,2,3]
    let _ ← bupddt draddr [4,5,6,7]
    bseldt draddr 3) St.fresh).Ends NoBlock fun r => r.1 = (3, [4,5,6]) := by
  have h := records_read_back sizedData_small records_fresh (.start St.fresh _)
  have hturns : 2 * 3 + 3 ≤ FUEL := by decide
  have hins : (DataCall.insert [1,2,3]).Meets fun _ => none := hturns
  rw [exec_bind]
  refine (h.2 _ hins).self.bind fun r hr => ?_
  have h2 := records_read_back sizedData_small records_fresh ((Reaches.start St.fresh _).step _ hins hr.1)
  have hupd : (DataCall.update r.1 [4,5,6,7]).Meets ((DataCall.insert [1,2,3]).after (fun _ => none) r.1) :=
    ⟨by simp [DataCall.after],by decide⟩
  rw [exec_bind]
  refine (h2.2 _ hupd).bind fun r' hr' => ?_
  have hread := (hr'.1 r.1 [4,5,6,7] (by simp [DataCall.after])).1 3
  rw [hread]
  rfl

end Run

end Btlib
