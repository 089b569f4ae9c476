import Cinder.Proofs.Placement.Frame
import Cinder.Proofs.Placement.Safety

/-!
# Slots of frames

The frame of a function holds the variables without a register and the registers that the
function saves.  Their slots never overlap, whatever the sizes of the variables are, and
they fill the frame from the frame pointer down to its size.
-/

namespace Cinder.Placement

open Cinder.Flow Machine

variable {table : SymbolTable} {f : Function} {p : Placement}

/-- What a slot of a frame is for. -/
inductive Tenant where
  | spill (v : Variable)
  | reg (r : Reg)
  | xmm (x : Xmm)

def Tenant.bytes (table : SymbolTable) : Tenant → Nat
  | .spill v => bytesIn table v
  | .reg _ => 8
  | .xmm _ => 8

/-- A slot at an offset is taken: a variable that is no parameter lives there, or a register
is saved there. -/
def Occupies (p : Placement) (f : Function) (offset : Int) : Tenant → Prop
  | .spill v => v ∉ f.parameters ∧ p.locations[v]? = some (.stack offset)
  | .reg r => (r, offset) ∈ p.savedRegs
  | .xmm x => (x, offset) ∈ p.savedXmms

def tenants (p : Placement) : List (Tenant × Int) :=
  p.spills.map (fun slot => (Tenant.spill slot.1, slot.2))
    ++ (p.savedRegs.map fun slot => (Tenant.reg slot.1, slot.2))
    ++ p.savedXmms.map fun slot => (Tenant.xmm slot.1, slot.2)

theorem slots_eq_map_tenants :
    p.slots table = p.tenants.map fun slot => (slot.2, slot.1.bytes table) := by
  rw [slots, tenants, List.map_append, List.map_append, List.map_map, List.map_map, List.map_map]
  rfl

theorem Laid.mem_tenants (hp : p.Laid table f) {tenant : Tenant} {offset : Int}
    (h : p.Occupies f offset tenant) : (tenant, offset) ∈ p.tenants := by
  cases tenant with
  | spill v =>
    have hspill : (v, offset) ∈ p.spills := hp.keeps h.1 h.2
    exact List.mem_append_left _ (List.mem_append_left _ (List.mem_map.2 ⟨_, hspill, rfl⟩))
  | reg r => exact List.mem_append_left _ (List.mem_append_right _ (List.mem_map.2 ⟨_, h, rfl⟩))
  | xmm x => exact List.mem_append_right _ (List.mem_map.2 ⟨_, h, rfl⟩)

def Apart (offset : Int) (bytes : Nat) (offset' : Int) (bytes' : Nat) : Prop :=
  offset + bytes ≤ offset' ∨ offset' + bytes' ≤ offset

theorem Laid.apart (hp : p.Laid table f) {a b : Tenant} {offset offset' : Int} (hne : a ≠ b)
    (ha : p.Occupies f offset a) (hb : p.Occupies f offset' b) :
    Apart offset (a.bytes table) offset' (b.bytes table) := by
  have hbelow : p.tenants.Pairwise fun s t : Tenant × Int => t.2 + t.1.bytes table ≤ s.2 := by
    have h := hp.packed.pairwise
    rw [slots_eq_map_tenants] at h
    exact List.pairwise_map.1 h
  have hapart : p.tenants.Pairwise fun s t : Tenant × Int =>
      Apart s.2 (s.1.bytes table) t.2 (t.1.bytes table) := hbelow.imp .inr
  have : Std.Symm fun s t : Tenant × Int =>
      Apart s.2 (s.1.bytes table) t.2 (t.1.bytes table) := ⟨fun _ _ => Or.symm⟩
  have hpair : (a, offset) ≠ (b, offset') := fun h => hne (congrArg Prod.fst h)
  exact hapart.forall (hp.mem_tenants ha) (hp.mem_tenants hb) hpair

theorem Laid.inside (hp : p.Laid table f) {tenant : Tenant} {offset : Int}
    (h : p.Occupies f offset tenant) :
    -p.frameSize ≤ offset ∧ offset + tenant.bytes table ≤ 0 := by
  have hslot : (offset, tenant.bytes table) ∈ p.slots table := by
    rw [slots_eq_map_tenants]
    exact List.mem_map.2 ⟨_, hp.mem_tenants h, rfl⟩
  exact hp.packed.inside hslot

/-- How a frame is divided up: slots do not overlap and lie within the frame, which is a
multiple of 16 bytes, registers are saved at multiples of eight, and those saved are just
the allocatable ones that a variable lives in. -/
structure Divided (p : Placement) (table : SymbolTable) (f : Function) : Prop where
  apart : ∀ {a b offset offset'}, a ≠ b → p.Occupies f offset a → p.Occupies f offset' b →
    Apart offset (a.bytes table) offset' (b.bytes table)
  inside : ∀ {tenant offset}, p.Occupies f offset tenant →
    -p.frameSize ≤ offset ∧ offset + tenant.bytes table ≤ 0
  typed : ∀ {v offset}, p.Occupies f offset (.spill v) →
    ∃ ty, table.type? v.symbol = some ty ∧ (Tenant.spill v).bytes table = ty.bytes
  frame : 16 ∣ p.frameSize
  words : ∀ offset ∈ p.savedRegs.map Prod.snd ++ p.savedXmms.map Prod.snd, 8 ∣ offset
  regs : ∀ r, r ∈ p.savedRegs.map Prod.fst ↔
    r ∈ allocatableRegs ∧ ∃ v : Variable, p.locations[v]? = some (.reg r)
  xmms : ∀ x, x ∈ p.savedXmms.map Prod.fst ↔
    x ∈ allocatableXmms ∧ ∃ v : Variable, p.locations[v]? = some (.xmm x)
  once : (p.savedRegs.map Prod.fst).Nodup ∧ (p.savedXmms.map Prod.fst).Nodup

theorem Laid.divided (hp : p.Laid table f) : p.Divided table f where
  apart := hp.apart
  inside := hp.inside
  typed {v offset} h := by
    obtain ⟨ty, hty⟩ := hp.typed (hp.keeps h.1 h.2 : (v, offset) ∈ p.spills)
    refine ⟨ty, hty, ?_⟩
    rw [Tenant.bytes, bytesIn, hty]
    rfl
  frame := hp.aligned
  words := hp.words
  regs _ := hp.regs
  xmms _ := hp.xmms
  once := ⟨hp.nodup_regs, hp.nodup_xmms⟩

/-- Placement succeeds on every function whose links stay within it and whose variables have
types, and the frame of every placement is divided up without overlaps. -/
theorem divided_ofFunction (table : SymbolTable) (f : Function) :
    (f.Enclosed → (∀ v, f.Mentions v → ∃ ty, table.type? v.symbol = some ty) →
      ∃ p, ofFunction table f = .ok p) ∧
    ∀ p, ofFunction table f = .ok p → p.Divided table f := by
  refine ⟨fun he htyped => ?_, fun p h => ?_⟩
  · obtain ⟨live, _, _, _, p, hlive, -, -, -, hp, -⟩ := exists_places he htyped
    exact ⟨p, bind_eq_ok.2 ⟨live, hlive, hp⟩⟩
  · obtain ⟨live, -, hp⟩ := bind_eq_ok.1 h
    exact (laid_of_ofLiveness hp).divided

/-! ## Offsets of 32 bits -/

theorem index_lt_of_mem_assign {regs : List Reg} {xmms : List Xmm} {index n : Nat}
    {classes : List ValueClass} (h : .stack n ∈ ArgumentSlot.assign regs xmms index classes) :
    n < index + classes.length := by
  fun_induction ArgumentSlot.assign <;> grind

/-- The frame of a function and the arguments above it lie within 2 ^ 31 bytes of its frame
pointer. -/
structure Addressable (p : Placement) (f : Function) : Prop where
  frame : p.frameSize < 2 ^ 31
  arguments : 16 + 8 * f.parameters.length < 2 ^ 31

theorem Laid.argument_inside (hp : p.Laid table f) {v : Variable} {offset : Int}
    (hv : v ∈ f.parameters) (h : p.locations[v]? = some (.stack offset)) :
    0 ≤ offset ∧ offset < 16 + 8 * f.parameters.length := by
  obtain ⟨arrivals, harrivals, harrives⟩ := hp.arrives
  obtain ⟨location, hmem, hlocation⟩ := harrives v hv
  cases hlocation.symm.trans h
  obtain ⟨types, htypes, harrivals⟩ := bind_eq_ok.1 harrivals
  cases harrivals
  obtain ⟨slot, hslot, heq⟩ := List.mem_map.1 (List.of_mem_zip hmem).2
  cases slot with
  | stack index =>
    cases heq
    have hindex := index_lt_of_mem_assign hslot
    rw [List.length_map, ← (forall₂_of_mapM htypes).length_eq] at hindex
    omega
  | reg | xmm => cases heq

/-- Offsets are exact numbers.  Within 2 ^ 31 bytes of the frame pointer, 32 bits hold them. -/
theorem toInt_offset (h : ofFunction table f = .ok p) (hfit : p.Addressable f) {offset : Int}
    (hoffset : (∃ tenant, p.Occupies f offset tenant) ∨
      ∃ v ∈ f.parameters, p.locations[v]? = some (.stack offset)) :
    (BitVec.ofInt 32 offset).toInt = offset := by
  obtain ⟨live, -, h⟩ := bind_eq_ok.1 h
  have hlaid := laid_of_ofLiveness h
  have hframe := hfit.frame
  have harguments := hfit.arguments
  rw [BitVec.toInt_ofInt]
  rcases hoffset with ⟨tenant, htenant⟩ | ⟨v, hv, hlocation⟩
  · have hinside := hlaid.inside htenant
    exact Int.bmod_eq_of_le (by omega) (by omega)
  · have hinside := hlaid.argument_inside hv hlocation
    exact Int.bmod_eq_of_le (by omega) (by omega)

/-! ## More variables than registers -/

def crowdSymbols : SymbolTable :=
  ⟨.ofList (([Ty.u8, Ty.s64, Ty.u16, Ty.u64, .bool, Ty.u32, Ty.s8]
    ++ List.replicate 8 Ty.f32).map fun ty => ⟨"v", .var (some ty) .user⟩)⟩

/-- A function that passes on all of them, so that three have to live in the frame. -/
def crowd : Function :=
  { symbol := 0, name := "crowd", returnType := none, entry := 0, exit := 1,
    blocks := .ofList [⟨[.label 0, .call none 0 ((List.range 15).map fun n => .var ⟨n, 0⟩),
        .goto 1], some 1, none⟩,
      ⟨[.label 1, .ret none], none, none⟩] }

theorem enclosed_crowd : crowd.Enclosed :=
  .of_forall (by decide) (by decide) (by decide)

theorem typed_crowd (v : Variable) (h : crowd.Mentions v) :
    ∃ ty, crowdSymbols.type? v.symbol = some ty := by
  have hinstructions : ∀ j < 2, ∀ i ∈ crowd.instructionsOf j, ∀ v ∈ i.uses ++ i.definition.toList,
      (crowdSymbols.type? v.symbol).isSome = true := by decide
  apply Option.isSome_iff_exists.1
  rcases h with h | ⟨j, block, hb, i, hi, h⟩
  · cases h
  · obtain ⟨hlt, -⟩ := Array.getElem?_eq_some_iff.1 hb
    refine hinstructions j hlt i ?_ v ?_
    · rw [Function.instructionsOf_of_block? hb]
      exact hi
    · rw [List.mem_append, Option.mem_toList]
      exact h

/-- A slot of one byte lies below one of four, and the first saved register lies further down
at a multiple of eight. -/
theorem divided_ofFunction_crowd :
    crowd.Enclosed ∧ (∀ v, crowd.Mentions v → ∃ ty, crowdSymbols.type? v.symbol = some ty) ∧
      ∃ p, ofFunction crowdSymbols crowd = .ok p ∧ p.frameSize = 112 ∧
        p.Occupies crowd (-4) (.spill ⟨5, 0⟩) ∧ p.Occupies crowd (-5) (.spill ⟨6, 0⟩) ∧
        p.Occupies crowd (-24) (.reg .rbx) ∧ Apart (-5) 1 (-4) 4 ∧ Apart (-24) 8 (-5) 1 ∧
        p.Divided crowdSymbols crowd := by
  obtain ⟨hexists, hdivided⟩ := divided_ofFunction crowdSymbols crowd
  obtain ⟨p, hp⟩ := hexists enclosed_crowd typed_crowd
  have hrun : ((ofFunction crowdSymbols crowd).toOption.map fun p =>
      (p.frameSize, p.locations[(⟨5, 0⟩ : Variable)]?, p.locations[(⟨6, 0⟩ : Variable)]?,
        p.savedRegs.head?)) =
      some (112, some (.stack (-4)), some (.stack (-5)), some (.rbx, -24)) := by
    decide +kernel
  rw [hp] at hrun
  simp only [Except.toOption, Option.map_some, Option.some.injEq, Prod.mk.injEq] at hrun
  obtain ⟨hsize, hword, hbyte, hsaved⟩ := hrun
  have hwide : p.Occupies crowd (-4) (.spill ⟨5, 0⟩) := ⟨List.not_mem_nil, hword⟩
  have hnarrow : p.Occupies crowd (-5) (.spill ⟨6, 0⟩) := ⟨List.not_mem_nil, hbyte⟩
  have hrbx : p.Occupies crowd (-24) (.reg .rbx) := List.mem_of_mem_head? hsaved
  have hslots := hdivided p hp
  exact ⟨enclosed_crowd, typed_crowd, p, hp, hsize, hwide, hnarrow, hrbx,
    hslots.apart (by simp) hnarrow hwide, hslots.apart (by simp) hrbx hnarrow, hslots⟩

end Cinder.Placement
