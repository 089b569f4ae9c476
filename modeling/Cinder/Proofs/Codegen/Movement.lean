import Cinder.Proofs.Codegen.Selection
import Cinder.Proofs.Machine.Execution

/-!
# Moving values

The code that loads, moves and pushes values leaves them where it should, whatever else
the registers and the memory hold, and changes nothing else.
-/

namespace Cinder

open Codegen Machine

theorem Machine.Size.bits_le (size : Size) : size.bits ≤ 64 := by
  cases size <;> decide

namespace Machine.State

def value (s : State) (ty : Ty) : Value → BitVec (Size.ofTy ty).bits
  | .imm value => value.setWidth _
  | .place (.reg r) => (s.reg r).setWidth _
  | .place (.xmm x) => (s.xmm x).setWidth _
  | .place (.mem _ a) => s.memory.load (s.address a) (Size.ofTy ty).bytes

variable {s : State} {ty : Ty} {place : Place} {r : Reg} {x : Xmm}

theorem source_operand (h : (Value.place place).Suits ty) (hty : ty.valueClass = .general) :
    (place.operand ty).size? = some (.ofTy ty) ∧
      s.source (.ofTy ty) (place.operand ty) = some (s.value ty (.place place)) := by
  cases place with
  | reg r => exact ⟨rfl, if_pos rfl⟩
  | xmm x => cases hty.symm.trans h
  | mem size a =>
    cases h
    exact ⟨rfl, if_pos rfl⟩

def widen (signed : Bool) {n : Nat} (bits : BitVec n) : BitVec 64 :=
  if signed then bits.signExtend 64 else bits.setWidth 64

theorem setWidth_widen (signed : Bool) {n : Nat} (hn : n ≤ 64) (bits : BitVec n) :
    (widen signed bits).setWidth n = bits := by
  cases signed with
  | true =>
    ext i hi
    have hlt : i < 64 := by omega
    simp [widen, BitVec.getElem_signExtend, hi, hlt]
  | false => exact (BitVec.setWidth_setWidth_of_le bits hn).trans (BitVec.setWidth_eq bits)

theorem widen_of_eq (signed : Bool) {n : Nat} (hn : n = 64) (bits : BitVec n) :
    widen signed bits = bits.setWidth 64 := by
  subst hn
  cases signed with
  | true => exact (BitVec.signExtend_eq bits).trans (BitVec.setWidth_eq bits).symm
  | false => rfl

theorem extended_eq {operand : Machine.Operand} {size : Size} {v : BitVec size.bits}
    (hsize : operand.size? = some size) (hsource : s.source size operand = some v)
    {sizes : List Size} (hmem : size ∈ sizes) (signed : Bool) :
    s.extended sizes signed operand = some (widen signed v) := by
  rw [extended, hsize]
  simp [hmem, hsource, widen]

/-- An integer or boolean is extended by its sign, if its type has one. -/
theorem exec_extend (r : Reg) (h : (Value.place place).Suits ty)
    (hty : ty.valueClass = .general) :
    s.exec (extend r (place.operand ty) ty) =
      some (s.setReg r (widen ty.isSigned (s.value ty (.place place)))) := by
  obtain ⟨hsize, hsource⟩ := @source_operand s ty place h hty
  -- writing four or eight bytes sets the whole register
  have hmov : 4 ≤ (Size.ofTy ty).bytes →
      widen ty.isSigned (s.value ty (.place place)) = (s.value ty (.place place)).setWidth 64 →
      s.exec (.mov (.reg r (.ofTy ty)) (place.operand ty)) =
        some (s.setReg r (widen ty.isSigned (s.value ty (.place place)))) := by
    intro hbytes hwiden
    rw [exec, hsource, hwiden]
    exact congrArg (fun v => some (s.setReg r v)) (if_pos hbytes)
  have hextend : ∀ {i : Instr} {sizes : List Size} {signed : Bool}, .ofTy ty ∈ sizes →
      s.exec i = (s.extended sizes signed (place.operand ty)).map (s.setReg r) →
      s.exec i = some (s.setReg r (widen signed (s.value ty (.place place)))) := by
    intro i sizes signed hmem hexec
    rw [hexec, extended_eq hsize hsource hmem signed]
    rfl
  cases ty with
  | float width => cases hty
  | bool => exact hextend (by decide) rfl
  | int width signed =>
    cases width with
    | w8 => cases signed <;> exact hextend (by decide) rfl
    | w16 => cases signed <;> exact hextend (by decide) rfl
    | w32 =>
      cases signed with
      | true => exact hextend (by decide) rfl
      | false => exact hmov (by decide) rfl
    | w64 => exact hmov (show 4 ≤ 8 by decide) (widen_of_eq signed rfl _)

/-- What a whole register holds after a value of a type has been loaded. -/
def word (s : State) (ty : Ty) : Value → BitVec 64
  | .imm value => value
  | .place place => widen ty.isSigned (s.value ty (.place place))

theorem setWidth_word (s : State) (ty : Ty) (value : Value) :
    (s.word ty value).setWidth (Size.ofTy ty).bits = s.value ty value := by
  cases value with
  | imm value => rfl
  | place place => exact setWidth_widen ty.isSigned (Size.bits_le _) _

abbrev nowhere : BitVec 64 → Prop :=
  fun _ => False

theorem exists_run_loadWord {value : Value} {code : List Instr}
    (h : loadInteger r value ty = .ok code) (hsuits : value.Suits ty)
    (hty : ty.valueClass = .general) (s : State) :
    ∃ t, s.run code = some t ∧ Changes [r] [] nowhere s t ∧ t.reg r = s.word ty value := by
  unfold loadInteger at h
  split at h
  · rename_i v
    cases h
    refine ⟨s.setReg r v, ?_, .setReg s List.mem_cons_self v, reg_setReg_self v⟩
    refine run_single ?_
    change some (s.setReg r ((v.setWidth Size.qword.bits).setWidth 64)) = _
    rw [setWidth_qword]
  · cases h
  · split at h
    · rename_i hself
      cases h
      obtain ⟨rfl, hbytes⟩ := hself
      have hbits : (Size.ofTy ty).bits = 64 := by rw [Size.bits, Size.bytes_ofTy, hbytes]
      refine ⟨s, rfl, .refl s, ?_⟩
      rw [word, widen_of_eq _ hbits]
      change s.reg r = ((s.reg r).setWidth _).setWidth 64
      rw [BitVec.setWidth_setWidth_of_le _ hbits.ge, BitVec.setWidth_eq]
    · cases h
      exact ⟨_, run_single (exec_extend r hsuits hty), .setReg s List.mem_cons_self _,
        reg_setReg_self _⟩

theorem exists_run_loadInteger {value : Value} {code : List Instr}
    (h : loadInteger r value ty = .ok code) (hsuits : value.Suits ty)
    (hty : ty.valueClass = .general) (s : State) :
    ∃ t, s.run code = some t ∧ Changes [r] [] nowhere s t ∧
      (t.reg r).setWidth (Size.ofTy ty).bits = s.value ty value := by
  obtain ⟨t, hrun, hchanges, hword⟩ := exists_run_loadWord h hsuits hty s
  refine ⟨t, hrun, hchanges, ?_⟩
  rw [hword, setWidth_word]

theorem exists_run_moveXmm {width : FloatWidth} {value : Value}
    (hsuits : value.Suits (.float width)) (x : Xmm) (s : State) :
    ∃ t, s.run (move (.xmm x) value (.float width)) = some t ∧ Changes [] [x] nowhere s t ∧
      (t.xmm x).setWidth (Size.ofTy (.float width)).bits = s.value (.float width) value := by
  unfold move
  split
  · rename_i heq
    subst heq
    exact ⟨s, rfl, .refl s, rfl⟩
  · have hbits : (Size.ofTy (.float width)).bits ≤ 64 := by cases width <;> decide
    cases value with
    | imm v => cases hsuits
    | place place =>
      cases place with
      | reg r => cases hsuits
      | xmm y =>
        refine ⟨_, run_single rfl, .setXmm s List.mem_cons_self _, ?_⟩
        rw [xmm_setXmm_self]
        exact setWidth_replaceLow _ hbits _
      | mem size a =>
        cases hsuits
        refine ⟨_, run_single (if_pos rfl), .setXmm s List.mem_cons_self _, ?_⟩
        rw [xmm_setXmm_self]
        exact (BitVec.setWidth_setWidth_of_le _ hbits).trans (BitVec.setWidth_eq _)

/-! ## The stack -/

def span (address : BitVec 64) (bytes : Nat) : BitVec 64 → Prop :=
  fun a => (a - address).toNat < bytes

theorem exec_sub (s : State) (r : Reg) (n : Int) :
    s.exec (.alu .sub (full r) (immediate n)) =
      some (s.setReg r (s.reg r - BitVec.ofInt 64 n)) := by
  change some (s.setReg r
    (s.reg r - ((BitVec.ofInt 64 n).setWidth Size.qword.bits).setWidth 64)) = _
  rw [setWidth_qword]

theorem exec_add (s : State) (r : Reg) (n : Int) :
    s.exec (.alu .add (full r) (immediate n)) =
      some (s.setReg r (s.reg r + BitVec.ofInt 64 n)) := by
  change some (s.setReg r
    (s.reg r + ((BitVec.ofInt 64 n).setWidth Size.qword.bits).setWidth 64)) = _
  rw [setWidth_qword]

theorem exists_exec_push (s : State) (r : Reg) :
    ∃ t, s.exec (.push (full r)) = some t ∧ t.reg .rsp = s.reg .rsp - 8 ∧
      Changes [.rsp] [] (span (s.reg .rsp - 8) 8) s t ∧
      ∀ n ≤ 8, t.memory.load (t.reg .rsp) n = (s.reg r).setWidth (8 * n) := by
  have hrsp : (s.setReg .rsp (s.reg .rsp - 8)).reg .rsp = s.reg .rsp - 8 := reg_setReg_self _
  refine ⟨_, rfl, hrsp, ?_, fun n hn => ?_⟩
  · exact (Changes.setReg s List.mem_cons_self _).trans (.store _ (fun _ h => h) _)
  · refine (congrArg (fun a => Memory.load _ a n) hrsp).trans ?_
    refine (Memory.load_store hn (by decide)).trans ?_
    exact BitVec.setWidth_setWidth_of_le _ (by omega)

theorem exists_run_pushArgument {value : Value} {code : List Instr}
    (h : Context.pushArgument value ty = .ok code) (hsuits : value.Suits ty) (s : State) :
    ∃ t, s.run code = some t ∧ t.reg .rsp = s.reg .rsp - 8 ∧
      Changes [scratch, .rsp] [scratchXmm] (span (s.reg .rsp - 8) 8) s t ∧
      t.memory.load (t.reg .rsp) (Size.ofTy ty).bytes = s.value ty value := by
  have hbytes : (Size.ofTy ty).bytes ≤ 8 := by cases Size.ofTy ty <;> decide
  have hinteger : ∀ {load : List Instr}, ty.valueClass = .general →
      loadInteger scratch value ty = .ok load →
      ∃ t, s.run (load ++ [Instr.push (full scratch)]) = some t ∧ t.reg .rsp = s.reg .rsp - 8 ∧
        Changes [scratch, .rsp] [scratchXmm] (span (s.reg .rsp - 8) 8) s t ∧
        t.memory.load (t.reg .rsp) (Size.ofTy ty).bytes = s.value ty value := by
    intro load hty hload
    obtain ⟨t, hrun, hchanges, hvalue⟩ := exists_run_loadInteger hload hsuits hty s
    obtain ⟨u, hexec, hrsp, hpush, htop⟩ := t.exists_exec_push scratch
    have htrsp : t.reg .rsp = s.reg .rsp := hchanges.reg _ (by decide)
    rw [htrsp] at hrsp hpush
    refine ⟨u, run_append hrun (run_single hexec), hrsp, ?_, (htop _ hbytes).trans hvalue⟩
    exact (hchanges.mono (by simp) (by simp) (fun _ => False.elim)).trans
      (hpush.mono (by simp) (by simp) (fun _ => id))
  cases ty with
  | float width =>
    cases h
    obtain ⟨t, hrun, hchanges, hvalue⟩ := exists_run_moveXmm hsuits scratchXmm s
    have htrsp : t.reg .rsp = s.reg .rsp := hchanges.reg _ List.not_mem_nil
    let top := s.reg .rsp - 8
    let u := t.setReg .rsp top
    let w := u.store top ((t.xmm scratchXmm).setWidth (8 * (Size.ofTy (.float width)).bytes))
    have htop : u.reg .rsp = top := reg_setReg_self top
    have hsub : t.exec (.alu .sub (full .rsp) (immediate 8)) = some u := by
      rw [exec_sub, htrsp]
      rfl
    have hstore : u.exec (.movFloat width (.mem (.ofTy (.float width)) .top) (.xmm scratchXmm)) =
        some w := by
      change (if _ then some (u.store (u.reg .rsp) _) else none) = _
      rw [htop]
      exact if_pos rfl
    have hmove : Changes [scratch, .rsp] [scratchXmm] (span top 8) s t :=
      hchanges.mono (by simp) (by simp) (fun _ => False.elim)
    refine ⟨w, run_append hrun (run_append (run_single hsub) (run_single hstore)), htop, ?_, ?_⟩
    · refine (hmove.trans (.setReg t (by simp) top)).trans (.store u (fun a ha => ?_) _)
      exact Nat.lt_of_lt_of_le ha hbytes
    · change w.memory.load (u.reg .rsp) _ = _
      rw [htop]
      refine (Memory.load_store (Nat.le_refl _) (Nat.le_trans hbytes (by decide))).trans ?_
      exact (BitVec.setWidth_eq _).trans hvalue
  | int width signed =>
    obtain ⟨load, hload, h⟩ := bind_eq_ok.1 h
    cases h
    exact hinteger rfl hload
  | bool =>
    obtain ⟨load, hload, h⟩ := bind_eq_ok.1 h
    cases h
    exact hinteger rfl hload

end Machine.State

end Cinder
