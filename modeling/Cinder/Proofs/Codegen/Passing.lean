import Cinder.Proofs.Codegen.Movement

/-!
# Passing arguments

The code in front of a call instruction, run in the frame of a function, leaves every
argument where it is passed: in its register, or as its word of the stack.
-/

namespace Cinder

open Codegen Machine

namespace ArgumentSlot

def isStack : ArgumentSlot → Bool
  | .stack _ => true
  | _ => false

def reg? : ArgumentSlot → Option Reg
  | .reg r => some r
  | _ => none

def xmm? : ArgumentSlot → Option Xmm
  | .xmm x => some x
  | _ => none

theorem eq_stack_of_filter_assign {regs : List Reg} {xmms : List Xmm} {index : Nat}
    {classes : List ValueClass} {k : Nat} {slot : ArgumentSlot}
    (h : ((assign regs xmms index classes).filter isStack)[k]? = some slot) :
    slot = .stack (index + k) := by
  fun_induction assign generalizing k with
  | case1 => cases h
  | case2 regs xmms index rest r ih => exact ih h
  | case3 xmms index rest ih =>
    rw [List.filter_cons_of_pos rfl] at h
    cases k with
    | zero => exact (Option.some.inj h).symm
    | succ k =>
      rw [ih h]
      congr 1
      omega
  | case4 regs index rest x xmms ih => exact ih h
  | case5 regs index rest ih =>
    rw [List.filter_cons_of_pos rfl] at h
    cases k with
    | zero => exact (Option.some.inj h).symm
    | succ k =>
      rw [ih h]
      congr 1
      omega

end ArgumentSlot

namespace Machine.State

/-! ## Values that stay -/

def Stable (s : State) (regs : List Reg) (xmms : List Xmm) (area : BitVec 64 → Prop) (ty : Ty)
    (value : Value) : Prop :=
  ∀ t, Changes regs xmms area s t → t.value ty value = s.value ty value

variable {s t : State} {regs : List Reg} {xmms : List Xmm} {area : BitVec 64 → Prop} {ty : Ty}

namespace Stable

variable {regs' : List Reg} {xmms' : List Xmm} {area' : BitVec 64 → Prop} {value : Value}

theorem mono (h : s.Stable regs' xmms' area' ty value) (hregs : regs ⊆ regs') (hxmms : xmms ⊆ xmms')
    (harea : ∀ a, area a → area' a) : s.Stable regs xmms area ty value :=
  fun t ht => h t (ht.mono hregs hxmms harea)

theorem after (h : s.Stable regs xmms area ty value) (hs : Changes regs xmms area s t) :
    t.Stable regs xmms area ty value :=
  fun u hu => (h u (hs.trans hu)).trans (h t hs).symm

end Stable

theorem stable_imm (value : BitVec 64) : s.Stable regs xmms area ty (.imm value) :=
  fun _ _ => rfl

theorem stable_reg {r : Reg} (h : r ∉ regs) : s.Stable regs xmms area ty (.place (.reg r)) :=
  fun _ ht => congrArg (BitVec.setWidth _) (ht.reg r h)

theorem stable_xmm {x : Xmm} (h : x ∉ xmms) : s.Stable regs xmms area ty (.place (.xmm x)) :=
  fun _ ht => congrArg (BitVec.setWidth _) (ht.xmm x h)

theorem stable_frame {size : Size} {offset : Int} (hrbp : .rbp ∉ regs)
    (h : ∀ i < (Size.ofTy ty).bytes, ¬ area (s.address (.frame offset) + BitVec.ofNat 64 i)) :
    s.Stable regs xmms area ty (.place (.mem size (.frame offset))) := by
  intro t ht
  have haddress : t.address (.frame offset) = s.address (.frame offset) := by
    rw [address, address, ht.reg _ hrbp]
  change t.memory.load _ _ = s.memory.load _ _
  rw [haddress]
  exact Memory.load_congr fun i hi => ht.memory _ (h i hi)

theorem stable_data {size : Size} {entry : Nat}
    (h : ∀ i < (Size.ofTy ty).bytes, ¬ area (s.entry entry + BitVec.ofNat 64 i)) :
    s.Stable regs xmms area ty (.place (.mem size (.data entry))) := by
  intro t ht
  change t.memory.load (t.entry entry) _ = s.memory.load (s.entry entry) _
  rw [ht.entry]
  exact Memory.load_congr fun i hi => ht.memory _ (h i hi)

/-! ## Arguments on the stack -/

theorem not_span_above (top : BitVec 64) {n i : Nat} (h : n + i + 8 < 2 ^ 64) :
    ¬ span (top - 8) 8 (top + BitVec.ofNat 64 n + BitVec.ofNat 64 i) := by
  unfold span
  bv_omega

/-- Bytes that start some way below an address are among all bytes below it. -/
theorem span_below {top a : BitVec 64} {depth bytes total : Nat} (hbytes : bytes ≤ depth)
    (hdepth : depth ≤ total) (h : span (top - BitVec.ofNat 64 depth) bytes a) :
    span (top - BitVec.ofNat 64 total) total a := by
  unfold span at *
  bv_omega

open Context (Argument)

/-- Arguments that are pushed from right to left lie on the stack from left to right. -/
theorem exists_run_pushes {arguments : List Argument} {codes : List (List Instr)}
    (hcodes : List.Forall₂ (fun a code => Context.pushArgument a.value a.ty = .ok code)
      arguments codes)
    (hsuits : ∀ a ∈ arguments, a.value.Suits a.ty) (s : State) :
    ∃ t, s.run codes.reverse.flatten = some t ∧
      t.reg .rsp = s.reg .rsp - BitVec.ofNat 64 (8 * arguments.length) ∧
      Changes [scratch, .rsp] [scratchXmm]
        (span (s.reg .rsp - BitVec.ofNat 64 (8 * arguments.length)) (8 * arguments.length)) s t ∧
      (8 * arguments.length < 2 ^ 64 → ∀ (k : Nat) (a : Argument), arguments[k]? = some a →
        s.Stable [scratch, .rsp] [scratchXmm]
          (span (s.reg .rsp - BitVec.ofNat 64 (8 * arguments.length)) (8 * arguments.length))
          a.ty a.value →
        t.memory.load (t.reg .rsp + BitVec.ofNat 64 (8 * k)) (Size.ofTy a.ty).bytes =
          s.value a.ty a.value) := by
  induction hcodes with
  | nil => exact ⟨s, rfl, by simp, .refl s, fun _ k a h => nomatch h⟩
  | @cons first code rest codes hcode _ ih =>
    obtain ⟨hfirst, hrest⟩ := List.forall_mem_cons.1 hsuits
    obtain ⟨t, hrun, hrsp, hchanges, hwords⟩ := ih hrest
    obtain ⟨u, hrun', hrsp', hchanges', htop⟩ := exists_run_pushArgument hcode hfirst t
    have hlength : 8 * (first :: rest).length = 8 * rest.length + 8 := by
      rw [List.length_cons]
      omega
    have hbelow : t.reg .rsp - 8 = s.reg .rsp - BitVec.ofNat 64 (8 * (first :: rest).length) := by
      rw [hrsp, hlength]
      bv_omega
    have hgrow : ∀ a, span (s.reg .rsp - BitVec.ofNat 64 (8 * rest.length)) (8 * rest.length) a →
        span (s.reg .rsp - BitVec.ofNat 64 (8 * (first :: rest).length))
          (8 * (first :: rest).length) a :=
      fun a ha => span_below (Nat.le_refl _) (by omega) ha
    have ht := hchanges.mono (List.Subset.refl _) (List.Subset.refl _) hgrow
    refine ⟨u, ?_, hrsp'.trans hbelow, ht.trans (hchanges'.mono (by simp) (by simp) ?_), ?_⟩
    · rw [List.reverse_cons, List.flatten_append]
      exact run_append hrun (by simpa using hrun')
    · intro a ha
      rw [hbelow] at ha
      exact span_below (by omega) (Nat.le_refl _) ha
    · intro hbytes k a hk hstable
      cases k with
      | zero =>
        cases hk
        rw [Nat.mul_zero, BitVec.add_zero, htop]
        exact hstable t ht
      | succ k =>
        have hlt : k < rest.length := Nat.lt_of_succ_lt_succ (List.getElem?_eq_some_iff.1 hk).1
        have hshift : u.reg .rsp + BitVec.ofNat 64 (8 * (k + 1)) =
            t.reg .rsp + BitVec.ofNat 64 (8 * k) := by
          rw [hrsp']
          bv_omega
        have hsize : (Size.ofTy a.ty).bytes ≤ 8 := by cases Size.ofTy a.ty <;> decide
        have hword := hwords (by omega) k a hk
          (hstable.mono (List.Subset.refl _) (List.Subset.refl _) hgrow)
        rw [← hword, hshift]
        apply Memory.load_congr
        intro i hi
        apply hchanges'.memory
        exact not_span_above _ (by omega)

/-! ## Arguments in registers -/

/-- The value of a type that has been passed to a location of the called function.  A word
of the stack has its place in the frame of that function, whose pointer will lie two words
below the top. -/
def passed (s : State) (ty : Ty) : Location → BitVec (Size.ofTy ty).bits
  | .reg r => (s.reg r).setWidth _
  | .xmm x => (s.xmm x).setWidth _
  | .stack offset =>
    s.memory.load (s.reg .rsp + BitVec.ofInt 64 (offset - 16)) (Size.ofTy ty).bytes

theorem exists_run_load {a : Argument} {code : List Instr} (h : a.load = .ok code)
    (hsuits : a.Suits) (s : State) :
    ∃ t, s.run code = some t ∧ Changes a.slot.reg?.toList a.slot.xmm?.toList nowhere s t ∧
      (a.slot.location.isRegister = true →
        t.passed a.ty a.slot.location = s.value a.ty a.value) := by
  obtain ⟨slot, value, ty⟩ := a
  cases slot with
  | reg r =>
    obtain ⟨t, hrun, hchanges, hvalue⟩ := exists_run_loadInteger h hsuits.value hsuits.slot s
    exact ⟨t, hrun, hchanges, fun _ => hvalue⟩
  | xmm x =>
    cases ty with
    | float width =>
      cases h
      obtain ⟨t, hrun, hchanges, hvalue⟩ := exists_run_moveXmm hsuits.value x s
      exact ⟨t, hrun, hchanges, fun _ => hvalue⟩
    | int width signed => cases hsuits.slot
    | bool => cases hsuits.slot
  | stack index =>
    cases h
    exact ⟨s, rfl, .refl s, fun hregister => nomatch hregister⟩

/-- A register that is passed a value keeps it if no other value is passed in it. -/
theorem passed_eq {slot : ArgumentSlot} (hregister : slot.location.isRegister = true)
    {slots : List ArgumentSlot} (hslots : ∀ slot' ∈ slots, slot.location ≠ slot'.location)
    (h : Changes (slots.filterMap ArgumentSlot.reg?) (slots.filterMap ArgumentSlot.xmm?)
      nowhere s t) :
    t.passed ty slot.location = s.passed ty slot.location := by
  cases slot with
  | reg r =>
    refine congrArg (BitVec.setWidth _) (h.reg r fun hmem => ?_)
    obtain ⟨slot', hslot', heq⟩ := List.mem_filterMap.1 hmem
    cases slot' with
    | reg r' =>
      cases heq
      exact hslots _ hslot' rfl
    | _ => cases heq
  | xmm x =>
    refine congrArg (BitVec.setWidth _) (h.xmm x fun hmem => ?_)
    obtain ⟨slot', hslot', heq⟩ := List.mem_filterMap.1 hmem
    cases slot' with
    | xmm x' =>
      cases heq
      exact hslots _ hslot' rfl
    | _ => cases heq
  | stack index => cases hregister

theorem exists_run_loads {arguments : List Argument} {codes : List (List Instr)}
    (hcodes : List.Forall₂ (fun a code => a.load = .ok code) arguments codes)
    (hsuits : ∀ a ∈ arguments, a.Suits)
    (hapart : (arguments.map Argument.slot).Pairwise fun a b =>
      a.location.isRegister = true → a.location ≠ b.location) (s : State) :
    ∃ t, s.run codes.flatten = some t ∧
      Changes ((arguments.map Argument.slot).filterMap ArgumentSlot.reg?)
        ((arguments.map Argument.slot).filterMap ArgumentSlot.xmm?) nowhere s t ∧
      ∀ a ∈ arguments, a.slot.location.isRegister = true →
        s.Stable ((arguments.map Argument.slot).filterMap ArgumentSlot.reg?)
          ((arguments.map Argument.slot).filterMap ArgumentSlot.xmm?) nowhere a.ty a.value →
        t.passed a.ty a.slot.location = s.value a.ty a.value := by
  induction hcodes generalizing s with
  | nil => exact ⟨s, rfl, .refl s, List.forall_mem_nil _⟩
  | @cons first code rest codes hcode _ ih =>
    have hsplit : ∀ {α : Type} (g : ArgumentSlot → Option α),
        ((first :: rest).map Argument.slot).filterMap g =
          (g first.slot).toList ++ (rest.map Argument.slot).filterMap g := by
      intro α g
      rw [List.map_cons, List.filterMap_cons]
      cases g first.slot <;> rfl
    obtain ⟨hfirst, hrest⟩ := List.forall_mem_cons.1 hsuits
    obtain ⟨hfirstApart, hrestApart⟩ := List.pairwise_cons.1 hapart
    obtain ⟨t, hrun, hchanges, hvalue⟩ := exists_run_load hcode hfirst s
    obtain ⟨u, hrun', hchanges', hvalues⟩ := ih hrest hrestApart t
    rw [hsplit, hsplit]
    have ht := hchanges.mono (List.subset_append_left _ ((rest.map Argument.slot).filterMap
      ArgumentSlot.reg?)) (List.subset_append_left _ ((rest.map Argument.slot).filterMap
      ArgumentSlot.xmm?)) fun _ => id
    refine ⟨u, run_append hrun hrun', ?_, List.forall_mem_cons.2 ⟨fun hregister _ => ?_, ?_⟩⟩
    · exact ht.trans (hchanges'.mono (by simp) (by simp) fun _ => id)
    · have hapart : ∀ slot ∈ rest.map Argument.slot, first.slot.location ≠ slot.location :=
        fun slot hslot => hfirstApart slot hslot hregister
      rw [passed_eq hregister hapart hchanges', hvalue hregister]
    · intro a ha hregister hstable
      rw [← hstable t ht]
      exact hvalues a ha hregister ((hstable.after ht).mono (by simp) (by simp) fun _ => id)

/-! ## The whole approach -/

theorem exists_run_parks (saved : List (Xmm × Int)) (s : State) :
    ∃ t, s.run (saved.map fun slot => Context.park slot.1 slot.2) = some t ∧
      Changes [] [] (fun a => ∃ slot ∈ saved, span (s.address (.frame slot.2)) 8 a) s t := by
  induction saved generalizing s with
  | nil => exact ⟨s, rfl, .refl s⟩
  | cons slot saved ih =>
    obtain ⟨x, offset⟩ := slot
    let t := s.store (s.address (.frame offset)) ((s.xmm x).setWidth (8 * 8))
    have hexec : s.exec (Context.park x offset) = some t := rfl
    obtain ⟨u, hrun, hchanges⟩ := ih t
    refine ⟨u, run_append (run_single hexec) hrun, ?_⟩
    refine (Changes.store s (fun a ha => ?_) _).trans (hchanges.mono (by simp) (by simp) ?_)
    · exact ⟨_, List.mem_cons_self, ha⟩
    · rintro a ⟨slot, hslot, ha⟩
      exact ⟨slot, List.mem_cons_of_mem _ hslot, ha⟩

theorem exists_run_adjust {alu : Alu} {g : BitVec 64 → BitVec 64 → BitVec 64}
    (hexec : ∀ (s : State) (n : Int), s.exec (.alu alu (full .rsp) (immediate n)) =
      some (s.setReg .rsp (g (s.reg .rsp) (BitVec.ofInt 64 n))))
    (hzero : ∀ a, g a 0 = a) (bytes : Nat) (s : State) :
    ∃ t, s.run (Context.adjust alu bytes) = some t ∧
      t.reg .rsp = g (s.reg .rsp) (BitVec.ofNat 64 bytes) ∧ Changes [.rsp] [] nowhere s t := by
  unfold Context.adjust
  split
  · rename_i hbytes
    rw [hbytes]
    exact ⟨s, rfl, (hzero _).symm, .refl s⟩
  · refine ⟨_, run_single (hexec s bytes), ?_, .setReg s List.mem_cons_self _⟩
    rw [reg_setReg_self, BitVec.ofInt_natCast]

end Machine.State

namespace Codegen.Context

open Machine.State

variable {context : Context} {result : Option Flow.Variable} {operands : List Flow.Operand}
  {live : Flow.VariableSet} {c : CallCode}

def CallCode.bytes (c : CallCode) : Nat :=
  8 * c.onStack.length + c.gap

theorem CallCode.dvd_bytes (c : CallCode) : 16 ∣ c.bytes := by
  unfold bytes gap padding
  split <;> omega

def approachRegs : List Reg :=
  scratch :: .rsp :: argumentRegs

def approachXmms : List Xmm :=
  scratchXmm :: argumentXmms

/-- The memory that the code in front of a call instruction writes: the slots of saved
registers, and the stack below its top. -/
def CallCode.area (c : CallCode) (s : State) (a : BitVec 64) : Prop :=
  (∃ slot ∈ c.saved, span (s.address (.frame slot.2)) 8 a) ∨
    span (s.reg .rsp - BitVec.ofNat 64 c.bytes) c.bytes a

section

variable (h : context.Passes operands c.arguments)

include h

/-- The word of the stack that an argument is passed in has the number of the argument
among those on the stack. -/
theorem Passes.slot_of_onStack {k : Nat} {a : Argument}
    (hk : c.onStack[k]? = some a) : a.slot = .stack k := by
  have hfilter : c.onStack.map Argument.slot =
      (ArgumentSlot.ofClasses (c.arguments.map fun a => a.ty.valueClass)).filter
        ArgumentSlot.isStack := by
    rw [← h.slots, List.filter_map]
    rfl
  have hslot : (c.onStack.map Argument.slot)[k]? = some a.slot := by
    rw [List.getElem?_map, hk]
    rfl
  rw [hfilter] at hslot
  rw [ArgumentSlot.eq_stack_of_filter_assign hslot, Nat.zero_add]

/-- The registers that arguments are passed in are those set apart for arguments. -/
theorem Passes.regs_subset :
    (c.arguments.map Argument.slot).filterMap ArgumentSlot.reg? ⊆ argumentRegs := by
  intro r hr
  rw [h.slots] at hr
  obtain ⟨slot, hslot, heq⟩ := List.mem_filterMap.1 hr
  have hamong := ArgumentSlot.among_of_mem_assign hslot
  cases slot with
  | reg r' =>
    cases heq
    exact hamong
  | _ => cases heq

theorem Passes.xmms_subset :
    (c.arguments.map Argument.slot).filterMap ArgumentSlot.xmm? ⊆ argumentXmms := by
  intro x hx
  rw [h.slots] at hx
  obtain ⟨slot, hslot, heq⟩ := List.mem_filterMap.1 hx
  have hamong := ArgumentSlot.among_of_mem_assign hslot
  cases slot with
  | xmm x' =>
    cases heq
    exact hamong
  | _ => cases heq

theorem Passes.pairwise : (c.arguments.map Argument.slot).Pairwise fun a b =>
      a.location.isRegister = true → a.location ≠ b.location := by
  rw [h.slots]
  exact ArgumentSlot.pairwise_assign (by decide) (by decide)

end

/-- The code in front of a call instruction moves the stack pointer down by the bytes of the
call, and leaves every argument that it does not overwrite where it is passed. -/
theorem Calls.exists_run_approach (h : context.Calls result operands live c)
    (hsuits : ∀ a ∈ c.arguments, a.Suits) (s : State) :
    ∃ t, s.run c.approach = some t ∧ Changes approachRegs approachXmms (c.area s) s t ∧
      t.reg .rsp = s.reg .rsp - BitVec.ofNat 64 c.bytes ∧
      (c.bytes < 2 ^ 64 → ∀ a ∈ c.arguments,
        s.Stable approachRegs approachXmms (c.area s) a.ty a.value →
        t.passed a.ty a.slot.location = s.value a.ty a.value) := by
  have hpasses := passes_of_arguments h.arguments
  have hregs : (c.arguments.map Argument.slot).filterMap ArgumentSlot.reg? ⊆ approachRegs :=
    List.subset_cons_of_subset _ (List.subset_cons_of_subset _ hpasses.regs_subset)
  have hxmms : (c.arguments.map Argument.slot).filterMap ArgumentSlot.xmm? ⊆ approachXmms :=
    List.subset_cons_of_subset _ hpasses.xmms_subset
  have honStack : ∀ a ∈ c.onStack, a ∈ c.arguments := fun a => List.mem_of_mem_filter
  have hcodes : List.Forall₂ (fun a code => pushArgument a.value a.ty = .ok code) c.onStack
      c.pushes.reverse := by
    rw [← List.forall₂_reverse_iff, List.reverse_reverse]
    exact forall₂_of_mapM h.pushes
  obtain ⟨s₁, hparks, hparked⟩ := s.exists_run_parks c.saved
  obtain ⟨s₂, hadjust, hrsp₂, hadjusted⟩ := exists_run_adjust (exec_sub · .rsp ·) (by simp) c.gap s₁
  obtain ⟨s₃, hpushes, hrsp₃, hpushed, hwords⟩ :=
    exists_run_pushes hcodes (fun a ha => (hsuits a (honStack a ha)).value) s₂
  obtain ⟨t, hloads, hloaded, hpassed⟩ :=
    exists_run_loads (forall₂_of_mapM h.loads) hsuits hpasses.pairwise s₃
  rw [hparked.reg _ List.not_mem_nil] at hrsp₂
  rw [List.reverse_reverse] at hpushes
  have hrsp : t.reg .rsp = s₃.reg .rsp :=
    hloaded.reg _ fun hmem => absurd (hpasses.regs_subset hmem) (by decide)
  have hs₂ : Changes approachRegs approachXmms (c.area s) s s₂ :=
    (hparked.mono (by simp) (by simp) fun _ => .inl).trans
      (hadjusted.mono (by simp [approachRegs]) (by simp) fun _ => False.elim)
  have harea : ∀ a, span (s₂.reg .rsp - BitVec.ofNat 64 (8 * c.onStack.length))
      (8 * c.onStack.length) a → c.area s a := by
    intro a ha
    rw [hrsp₂, BitVec.sub_sub, ← BitVec.ofNat_add, Nat.add_comm] at ha
    exact .inr (span_below (Nat.le_add_right ..) (Nat.le_refl _) ha)
  have hs₃ := hs₂.trans (hpushed.mono (by simp [approachRegs]) (by simp [approachXmms]) harea)
  refine ⟨t, ?_, hs₃.trans (hloaded.mono hregs hxmms fun _ => False.elim), ?_, ?_⟩
  · exact run_append (run_append (run_append hparks hadjust) hpushes) hloads
  · rw [hrsp, hrsp₃, hrsp₂, BitVec.sub_sub, ← BitVec.ofNat_add, Nat.add_comm]
    rfl
  · intro hbytes a ha hstable
    by_cases hregister : a.slot.location.isRegister = true
    · rw [← hstable s₃ hs₃]
      exact hpassed a ha hregister ((hstable.after hs₃).mono hregs hxmms fun _ => False.elim)
    · have hstack : a ∈ c.onStack := by
        refine List.mem_filter.2 ⟨ha, ?_⟩
        rcases a with ⟨⟨⟩ | ⟨⟩ | index, value, ty⟩
        · exact absurd rfl hregister
        · exact absurd rfl hregister
        · rfl
      obtain ⟨k, hk⟩ := List.getElem?_of_mem hstack
      have hword := hwords (Nat.lt_of_le_of_lt (Nat.le_add_right ..) hbytes) k a hk
        ((hstable.after hs₂).mono (by simp [approachRegs]) (by simp [approachXmms]) harea)
      have hoffset : (16 + 8 * (k : Int)) - 16 = ((8 * k : Nat) : Int) := by omega
      rw [hpasses.slot_of_onStack hk, ← hstable s₂ hs₂, ← hword]
      change t.memory.load (t.reg .rsp + BitVec.ofInt 64 (16 + 8 * (k : Int) - 16)) _ = _
      rw [hoffset, BitVec.ofInt_natCast, hrsp]
      exact Memory.load_congr fun i _ => hloaded.memory _ id

end Codegen.Context

end Cinder
