import Cinder.Proofs.Placement.Locations

/-!
# Frames of functions

Parameters stay where they arrive.  All other variables live in registers that the
function saves or in slots of its frame.  The slots of the variables and of the saved
registers lie one below the other, so that no two of them overlap.
-/

namespace Cinder

open Cinder.Flow Machine

variable {vs : List Variable} {x : Xmm}

theorem Ty.bytes_pos (ty : Ty) : 0 < ty.bytes := by
  rcases ty with ⟨⟨⟩, ⟨⟩⟩ | ⟨⟨⟩⟩ | ⟨⟩ <;> decide

/-! ## Packing -/

namespace Frame

/-- Slots, given by their offsets and their bytes, lie one below the other within some
bytes of a frame. -/
def Packs : Nat → List (Int × Nat) → Nat → Prop
  | upper, [], lower => upper ≤ lower
  | upper, (offset, bytes) :: slots, lower =>
    ∃ depth : Nat, offset = -depth ∧ upper + bytes ≤ depth ∧ Packs depth slots lower

variable {upper middle lower : Nat} {slots slots' : List (Int × Nat)}

theorem Packs.le (h : Packs upper slots lower) : upper ≤ lower := by
  induction slots generalizing upper with
  | nil => exact h
  | cons slot slots ih =>
    obtain ⟨depth, -, hdepth, h⟩ := h
    have hle := ih h
    omega

theorem Packs.append (h : Packs upper slots middle) (h' : Packs middle slots' lower) :
    Packs upper (slots ++ slots') lower := by
  induction slots generalizing upper with
  | nil =>
    cases slots' with
    | nil => exact Nat.le_trans h h'
    | cons slot slots' =>
      obtain ⟨depth, hoffset, hdepth, h'⟩ := h'
      exact ⟨depth, hoffset, Nat.le_trans (Nat.add_le_add_right h _) hdepth, h'⟩
  | cons slot slots ih =>
    obtain ⟨depth, hoffset, hdepth, h⟩ := h
    exact ⟨depth, hoffset, hdepth, ih h⟩

theorem Packs.mono (h : Packs upper slots middle) (hle : middle ≤ lower) :
    Packs upper slots lower := by
  rw [← List.append_nil slots]
  exact h.append hle

theorem Packs.inside (h : Packs upper slots lower) {slot : Int × Nat} (hslot : slot ∈ slots) :
    -lower ≤ slot.1 ∧ slot.1 + slot.2 ≤ -upper := by
  induction slots generalizing upper with
  | nil => cases hslot
  | cons first slots ih =>
    obtain ⟨depth, hoffset, hdepth, h⟩ := h
    have hle := h.le
    rcases List.mem_cons.1 hslot with rfl | hslot
    · constructor <;> omega
    · have hinside := ih h hslot
      constructor <;> omega

theorem Packs.pairwise (h : Packs upper slots lower) :
    slots.Pairwise fun a b : Int × Nat => b.1 + b.2 ≤ a.1 := by
  induction slots generalizing upper with
  | nil => exact .nil
  | cons first slots ih =>
    obtain ⟨depth, hoffset, -, h⟩ := h
    refine .cons (fun slot hslot => ?_) (ih h)
    rw [hoffset]
    exact (h.inside hslot).2

theorem packs_reserveWords {α : Type} (frame : Frame) (l : List α) :
    Packs frame.size ((frame.reserveWords l).1.map fun slot => (slot.2, 8))
      (frame.reserveWords l).2.size := by
  induction l generalizing frame with
  | nil => exact Nat.le_refl _
  | cons a l ih =>
    refine ⟨roundUp frame.size 8 + 8, rfl, ?_, ih _⟩
    exact Nat.add_le_add_right (le_roundUp _ (by decide)) 8

theorem dvd_of_mem_reserveWords {α : Type} {frame : Frame} {l : List α} {slot : α × Int}
    (h : slot ∈ (frame.reserveWords l).1) : 8 ∣ slot.2 := by
  induction l generalizing frame with
  | nil => cases h
  | cons a l ih =>
    rcases List.mem_cons.1 h with rfl | h
    · have hdvd := Nat.dvd_add (dvd_roundUp frame.size 8) (Nat.dvd_refl 8)
      exact Int.dvd_neg.2 (Int.natCast_dvd_natCast.2 hdvd)
    · exact ih h

end Frame

namespace Placement

variable {table : SymbolTable} {f : Function} {live : Arena (List (Point VariableSet))}
  {p : Placement}

def bytesIn (table : SymbolTable) (v : Variable) : Nat :=
  (table.type? v.symbol).elim 0 Ty.bytes

theorem packs_of_spill {frame frame' : Frame} {slots : List (Variable × Int)}
    (h : spill table frame vs = .ok (slots, frame')) :
    Frame.Packs frame.size (slots.map fun slot => (slot.2, bytesIn table slot.1)) frame'.size := by
  induction vs generalizing frame slots with
  | nil =>
    cases h
    exact Nat.le_refl _
  | cons v vs ih =>
    obtain ⟨ty, hty, h⟩ := bind_eq_ok.1 h
    obtain ⟨⟨rest, frame₁⟩, hrest, h⟩ := bind_eq_ok.1 h
    cases h
    refine ⟨frame.size + ty.bytes, rfl, ?_, ih hrest⟩
    rw [bytesIn, SymbolTable.typeOf_eq_ok.1 hty]
    exact Nat.le_refl _

theorem keys_of_spill {frame frame' : Frame} {slots : List (Variable × Int)}
    (h : spill table frame vs = .ok (slots, frame')) : slots.map Prod.fst = vs := by
  induction vs generalizing frame slots with
  | nil =>
    cases h
    rfl
  | cons v vs ih =>
    obtain ⟨ty, -, h⟩ := bind_eq_ok.1 h
    obtain ⟨⟨rest, frame₁⟩, hrest, h⟩ := bind_eq_ok.1 h
    cases h
    exact congrArg (v :: ·) (ih hrest)

/-! ## Parts of placements -/

def assembled (arrivals : List (Variable × Location)) (general : Coloring Reg)
    (float : Coloring Xmm) (spills : List (Variable × Int)) (frame : Frame) : Placement :=
  let locations : Std.ExtTreeMap Variable Location :=
    .ofList (entries arrivals general float spills)
  let used := locations.toList.map Prod.snd
  let regs := frame.reserveWords (allocatableRegs.filter (.reg · ∈ used))
  let xmms := regs.2.reserveWords (allocatableXmms.filter (.xmm · ∈ used))
  ⟨locations, spills, roundUp xmms.2.size 16, regs.1, xmms.1⟩

theorem arrive_of_parameterLocations {arrivals : List (Variable × Location)}
    (h : parameterLocations table f = .ok arrivals) : Arrive table f arrivals := by
  have htyped : ∀ v ∈ f.parameters, ∃ ty, table.type? v.symbol = some ty := by
    intro v hv
    obtain ⟨types, htypes, -⟩ := bind_eq_ok.1 h
    obtain ⟨ty, -, hty⟩ := forall₂_exists_left (forall₂_of_mapM htypes).flip hv
    exact ⟨ty, SymbolTable.typeOf_eq_ok.1 hty⟩
  obtain ⟨arrivals', h', harrive⟩ := exists_parameterLocations htyped
  cases h.symm.trans h'
  exact harrive

theorem mem_of_mapM_typeIn {typed : List (Variable × Ty)}
    (h : vs.mapM (fun v => return (v, ← v.typeIn table)) = .ok typed) {v : Variable} {ty : Ty} :
    (v, ty) ∈ typed ↔ v ∈ vs ∧ table.type? v.symbol = some ty := by
  have htyped : ∀ v ∈ vs, ∃ ty, table.type? v.symbol = some ty := by
    intro v hv
    obtain ⟨p, -, hp⟩ := forall₂_exists_left (forall₂_of_mapM h).flip hv
    obtain ⟨ty, hty, -⟩ := bind_eq_ok.1 hp
    exact ⟨ty, SymbolTable.typeOf_eq_ok.1 hty⟩
  obtain ⟨typed', h', hmem⟩ := exists_typed htyped
  cases h.symm.trans h'
  exact hmem

theorem parts_of_ofLiveness (h : ofLiveness table f live = .ok p) :
    ∃ g typed arrivals general float spills frame,
      parameterLocations table f = .ok arrivals ∧
      Parts table f g typed arrivals general float spills ∧
      spill table {} (uncolored general ++ uncolored float) = .ok (spills, frame) ∧
      p = assembled arrivals general float spills frame := by
  obtain ⟨g, -, h⟩ := bind_eq_ok.1 h
  obtain ⟨arrivals, harrivals, h⟩ := bind_eq_ok.1 h
  obtain ⟨typed, htyped, h⟩ := bind_eq_ok.1 h
  obtain ⟨⟨spills, frame⟩, hspill, h⟩ := bind_eq_ok.1 h
  cases h
  refine ⟨g, typed, arrivals, _, _, spills, frame, harrivals, ?_, hspill, rfl⟩
  refine ⟨arrive_of_parameterLocations harrivals, fun {v ty} => ?_, g.colors_color _ _,
    g.colors_color _ _, keys_of_spill hspill⟩
  rw [mem_of_mapM_typeIn htyped, List.mem_filter, decide_eq_true_iff]

/-! ## Layout -/

/-- The slots of a frame: those of variables, then those of saved registers. -/
def slots (p : Placement) (table : SymbolTable) : List (Int × Nat) :=
  p.spills.map (fun slot => (slot.2, bytesIn table slot.1))
    ++ (p.savedRegs.map fun slot => (slot.2, 8)) ++ p.savedXmms.map fun slot => (slot.2, 8)

/-- Where a variable that is not a parameter lives: in a register that the function
saves, or in a slot of its own. -/
def Keeps (p : Placement) (v : Variable) : Location → Prop
  | .reg r => r ∈ p.savedRegs.map Prod.fst
  | .xmm x => x ∈ p.savedXmms.map Prod.fst
  | .stack offset => (v, offset) ∈ p.spills

structure Laid (p : Placement) (table : SymbolTable) (f : Function) : Prop where
  packed : Frame.Packs 0 (p.slots table) p.frameSize
  aligned : 16 ∣ p.frameSize
  words : ∀ offset ∈ p.savedRegs.map Prod.snd ++ p.savedXmms.map Prod.snd, 8 ∣ offset
  regs : ∀ {r}, r ∈ p.savedRegs.map Prod.fst ↔
    r ∈ allocatableRegs ∧ ∃ v : Variable, p.locations[v]? = some (.reg r)
  xmms : ∀ {x}, x ∈ p.savedXmms.map Prod.fst ↔
    x ∈ allocatableXmms ∧ ∃ v : Variable, p.locations[v]? = some (.xmm x)
  nodup_regs : (p.savedRegs.map Prod.fst).Nodup
  nodup_xmms : (p.savedXmms.map Prod.fst).Nodup
  arrives : ∃ arrivals, parameterLocations table f = .ok arrivals ∧
    ∀ v ∈ f.parameters, ∃ location, (v, location) ∈ arrivals ∧ p.locations[v]? = some location
  keeps : ∀ {v location}, v ∉ f.parameters → p.locations[v]? = some location → p.Keeps v location
  typed : ∀ {v offset}, (v, offset) ∈ p.spills → ∃ ty, table.type? v.symbol = some ty

theorem mem_filter_used {ρ : Type} {pool : List ρ} {place : ρ → Location}
    {locations : Std.ExtTreeMap Variable Location} {c : ρ} :
    c ∈ pool.filter (fun c => place c ∈ locations.toList.map Prod.snd) ↔
      c ∈ pool ∧ ∃ v : Variable, locations[v]? = some (place c) := by
  rw [List.mem_filter, decide_eq_true_iff, List.mem_map]
  refine and_congr_right fun _ => ⟨?_, ?_⟩
  · rintro ⟨⟨v, location⟩, hmem, rfl⟩
    exact ⟨v, Std.ExtTreeMap.mem_toList_iff_getElem?_eq_some.1 hmem⟩
  · rintro ⟨v, hv⟩
    exact ⟨_, Std.ExtTreeMap.mem_toList_iff_getElem?_eq_some.2 hv, rfl⟩

section

variable {g : Interference} {typed : List (Variable × Ty)} {arrivals : List (Variable × Location)}
  {general : Coloring Reg} {float : Coloring Xmm} {spills : List (Variable × Int)} {frame : Frame}

theorem mem_savedRegs_assembled {r : Reg} :
    r ∈ (assembled arrivals general float spills frame).savedRegs.map Prod.fst ↔
      r ∈ allocatableRegs ∧ ∃ v : Variable,
        (assembled arrivals general float spills frame).locations[v]? = some (.reg r) := by
  rw [assembled, Frame.keys_reserveWords, mem_filter_used]

theorem mem_savedXmms_assembled :
    x ∈ (assembled arrivals general float spills frame).savedXmms.map Prod.fst ↔
      x ∈ allocatableXmms ∧ ∃ v : Variable,
        (assembled arrivals general float spills frame).locations[v]? = some (.xmm x) := by
  rw [assembled, Frame.keys_reserveWords, mem_filter_used]

theorem packs_slots_assembled (h : spill table {} vs = .ok (spills, frame)) :
    Frame.Packs 0 ((assembled arrivals general float spills frame).slots table)
      (assembled arrivals general float spills frame).frameSize := by
  unfold slots assembled
  refine Frame.Packs.append ((packs_of_spill h).append (frame.packs_reserveWords _)) ?_
  exact (Frame.packs_reserveWords _ _).mono (le_roundUp _ (by decide))

namespace Parts

variable (hp : Parts table f g typed arrivals general float spills) {v : Variable}
  {location : Location}

include hp

theorem not_mem_parameters {c : ValueClass} (h : v ∈ ofClass typed c) : v ∉ f.parameters := by
  obtain ⟨ty, hty, -⟩ := mem_ofClass.1 h
  exact (hp.mem_typed.1 hty).1.2

theorem not_mem_parameters_of_mem_spills {offset : Int} (h : (v, offset) ∈ spills) :
    v ∉ f.parameters := by
  have hspilled : v ∈ uncolored general ++ uncolored float := hp.slots ▸ List.mem_map_of_mem h
  rcases List.mem_append.1 hspilled with h | h
  · exact hp.not_mem_parameters (hp.regs.mem_iff.1 (mem_of_getElem?_eq_some (mem_uncolored.1 h)))
  · exact hp.not_mem_parameters (hp.xmms.mem_iff.1 (mem_of_getElem?_eq_some (mem_uncolored.1 h)))

theorem mem_arrivals (hv : v ∈ f.parameters)
    (h : (v, location) ∈ entries arrivals general float spills) : (v, location) ∈ arrivals := by
  rcases mem_entries.1 h with h | ⟨r, -, hr⟩ | ⟨x, -, hx⟩ | ⟨offset, -, hoffset⟩
  · exact h
  · have hmem := hp.regs.mem_iff.1 (mem_of_getElem?_eq_some hr)
    exact absurd hv (hp.not_mem_parameters hmem)
  · have hmem := hp.xmms.mem_iff.1 (mem_of_getElem?_eq_some hx)
    exact absurd hv (hp.not_mem_parameters hmem)
  · exact absurd hv (hp.not_mem_parameters_of_mem_spills hoffset)

theorem exists_mem_arrivals (hv : v ∈ f.parameters) :
    ∃ location, (v, location) ∈ arrivals ∧
      (assembled arrivals general float spills frame).locations[v]? = some location := by
  have hlocated : v ∈ (assembled arrivals general float spills frame).locations := by
    have hkey : v ∈ arrivals.map Prod.fst := hp.arrive.keys ▸ hv
    obtain ⟨⟨u, location⟩, hmem, rfl⟩ := List.mem_map.1 hkey
    rw [assembled, Std.ExtTreeMap.mem_ofList, List.contains_iff_mem]
    exact List.mem_map.2 ⟨(u, location), mem_entries.2 (.inl hmem), rfl⟩
  obtain ⟨location, h⟩ :=
    Option.isSome_iff_exists.1 (Std.ExtTreeMap.mem_iff_isSome_getElem?.1 hlocated)
  exact ⟨location, hp.mem_arrivals hv (mem_of_getElem?_ofList h), h⟩

theorem keeps_of_getElem? (hv : v ∉ f.parameters)
    (h : (assembled arrivals general float spills frame).locations[v]? = some location) :
    (assembled arrivals general float spills frame).Keeps v location := by
  rcases mem_entries.1 (mem_of_getElem?_ofList h) with
    hmem | ⟨r, rfl, hr⟩ | ⟨x, rfl, hx⟩ | ⟨offset, rfl, hoffset⟩
  · exact absurd (hp.arrive.keys ▸ List.mem_map_of_mem hmem) hv
  · exact mem_savedRegs_assembled.2 ⟨hp.regs.mem_pool hr, v, h⟩
  · exact mem_savedXmms_assembled.2 ⟨hp.xmms.mem_pool hx, v, h⟩
  · exact hoffset

end Parts

theorem laid_of_ofLiveness (h : ofLiveness table f live = .ok p) : p.Laid table f := by
  obtain ⟨g, typed, arrivals, general, float, spills, frame, harrivals, hparts, hspill, rfl⟩ :=
    parts_of_ofLiveness h
  refine ⟨packs_slots_assembled hspill, dvd_roundUp .., ?_, mem_savedRegs_assembled,
    mem_savedXmms_assembled, ?_, ?_,
    ⟨arrivals, harrivals, fun v hv => hparts.exists_mem_arrivals hv⟩,
    hparts.keeps_of_getElem?, ?_⟩
  · intro offset hoffset
    rcases List.mem_append.1 hoffset with h | h
    · obtain ⟨slot, hslot, rfl⟩ := List.mem_map.1 h
      exact Frame.dvd_of_mem_reserveWords hslot
    · obtain ⟨slot, hslot, rfl⟩ := List.mem_map.1 h
      exact Frame.dvd_of_mem_reserveWords hslot
  · rw [assembled, Frame.keys_reserveWords]
    exact List.Nodup.filter _ (by decide)
  · rw [assembled, Frame.keys_reserveWords]
    exact List.Nodup.filter _ (by decide)
  · intro v offset h
    have hentry : (v, .stack offset) ∈ entries arrivals general float spills :=
      mem_entries.2 (.inr (.inr (.inr ⟨offset, rfl, h⟩)))
    obtain ⟨ty, hty, -⟩ := hparts.holds_of_mem_entries hentry
    exact ⟨ty, hty⟩

end

namespace Laid

variable {v : Variable} {offset : Int}

theorem mem_slots_of_mem_spills (h : (v, offset) ∈ p.spills) :
    (offset, bytesIn table v) ∈ p.slots table :=
  List.mem_append_left _ (List.mem_append_left _ (List.mem_map.2 ⟨_, h, rfl⟩))

theorem mem_slots_of_mem_savedXmms (h : (x, offset) ∈ p.savedXmms) :
    (offset, 8) ∈ p.slots table :=
  List.mem_append_right _ (List.mem_map.2 ⟨_, h, rfl⟩)

theorem spill_inside (hp : p.Laid table f) (h : (v, offset) ∈ p.spills) {ty : Ty}
    (hty : table.type? v.symbol = some ty) :
    -p.frameSize ≤ offset ∧ offset + ty.bytes ≤ 0 := by
  have hinside := hp.packed.inside (mem_slots_of_mem_spills h)
  rw [bytesIn, hty] at hinside
  exact hinside

theorem spill_neg (hp : p.Laid table f) (h : (v, offset) ∈ p.spills) : offset < 0 := by
  obtain ⟨ty, hty⟩ := hp.typed h
  have hinside := hp.spill_inside h hty
  have hpos : 0 < ty.bytes := ty.bytes_pos
  omega

theorem lookup_savedXmms (hp : p.Laid table f) :
    p.savedXmms.lookup x = some offset ↔ (x, offset) ∈ p.savedXmms := by
  rw [List.lookup_eq_some_iff]
  constructor
  · rintro ⟨l₁, l₂, hsplit, -⟩
    rw [hsplit]
    exact List.mem_append_right _ List.mem_cons_self
  · intro hmem
    obtain ⟨l₁, l₂, hsplit⟩ := List.append_of_mem hmem
    refine ⟨l₁, l₂, hsplit, fun slot hslot => ?_⟩
    have hnodup := hp.nodup_xmms
    rw [hsplit, List.map_append, List.map_cons] at hnodup
    have hne := (List.nodup_append.1 hnodup).2.2 slot.1 (List.mem_map_of_mem hslot) x
      List.mem_cons_self
    exact bne_iff_ne.2 hne.symm

theorem nodup_offsets (hp : p.Laid table f) : (p.savedXmms.map Prod.snd).Nodup := by
  have hpairwise := hp.packed.pairwise.sublist (List.sublist_append_right _ _)
  rw [List.pairwise_map] at hpairwise
  refine List.pairwise_map.2 (hpairwise.imp fun {a b} hab heq => ?_)
  omega

end Laid

end Placement

end Cinder
