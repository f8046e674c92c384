import ShaderLowering.Proofs.Sessions.Failures
import ShaderLowering.Proofs.Sessions.Supervision

/-!
# Compilation terminates

A worker that constructs entry points alone takes its steps on a machine that knows no limit to how deep
constructions nest.  It comes to an end all the same, whatever the assembly is.  A construction is begun only
for a key that has no slot yet.  All but those of the entry points' own functions are of keys that another
construction asked for, and these are `Listed`: a type is defined, and a function key that a call asks for
has a defined method and one defined type for each of its effective parameters.  There are only so many such
keys, whichever way methods call each other and types contain each other.

So the number of constructions under way at one time has a bound in the numbers of methods, of types and of
effective parameters (`WorkerPool.length_underway_le`), and so has the number of all that are ever begun,
except for shapes and constants (`WorkerPool.length_composite_slots_le`), whose construction asks for
nothing.
-/

namespace ShaderLowering

open Construction

variable {a : Assembly} {requested entries : List EntryPoint}

/-! ## Keys that can have slots -/

namespace Key

/-- The construction of the entity may ask for others. -/
def Composite (k : Key) : Prop :=
  0 < k.stage

instance : DecidablePred Composite := fun k => inferInstanceAs (Decidable (0 < k.stage))

end Key

namespace Assembly

/-- Number of function keys with defined types only. -/
def keyTotal (a : Assembly) : Nat :=
  (a.methods.toList.map a.keyCount).sum

/-- The fields that are defined. -/
def fieldIds (a : Assembly) : List FieldId :=
  (List.range a.fields.size).map EntityId.ofIndex

/-- Every key of a function, a variable or a type that can get a slot. -/
def composites (a : Assembly) : List Key :=
  a.methods.toList.map (fun m => .function (FunctionKey.ofMethod m)) ++
    a.methods.toList.flatMap (fun m => (a.keysOf m).map .function) ++
    a.fieldIds.map .variable ++ a.typeIds.map .type

theorem length_composites (a : Assembly) :
    a.composites.length = a.methods.size + a.keyTotal + a.fields.size + a.types.size := by
  simp [composites, keyTotal, length_keysOf, fieldIds, typeIds, Nat.add_assoc]

theorem length_places_add_one (a : Assembly) : a.places.length + 1 = a.keyTotal + a.types.size + 3 := by
  simp [places, keyTotal, length_keysOf, typeIds, Nat.add_assoc]

theorem mem_fieldIds {id : FieldId} {f : FieldDef} (h : a.field? id = some f) : id ∈ a.fieldIds := by
  obtain ⟨hindex, -⟩ := Array.getElem?_eq_some_iff.mp h
  exact List.mem_map.mpr ⟨id.index, List.mem_range.mpr hindex, EntityId.ofIndex_index id⟩

/-- A listed key of a function, a variable or a type is one of those that there are. -/
theorem mem_composites_of_listed (hnumbered : a.Numbered) {k : Key} (hcomposite : k.Composite)
    (hlisted : k.Listed a) : k ∈ a.composites := by
  simp only [composites, List.mem_append]
  cases k with
  | type id => exact .inr (List.mem_map_of_mem (mem_typeIds hlisted))
  | «variable» id =>
    obtain ⟨f, hf, -⟩ := hlisted
    exact .inl (.inr (List.mem_map_of_mem (mem_fieldIds hf)))
  | function key =>
    obtain ⟨m, hm, hlength, htypes⟩ := hlisted
    have hkey : key ∈ a.keysOf m := mem_keysOf (hnumbered _ m hm).symm hlength htypes
    refine .inl (.inl (.inr (List.mem_flatMap.mpr ⟨m, ?_, List.mem_map_of_mem hkey⟩)))
    exact Array.mem_toList_iff.mpr (Array.mem_of_getElem? hm)
  | shape s => exact absurd hcomposite (Nat.lt_irrefl 0)
  | constant type bits => exact absurd hcomposite (Nat.lt_irrefl 0)

/-- The function of an entry point is one of those that there are. -/
theorem mem_composites_of_rooted {k : Key} (hroot : Rooted a entries k) : k ∈ a.composites := by
  obtain ⟨entry, -, m, hm, rfl⟩ := hroot
  simp only [composites, List.mem_append]
  refine .inl (.inl (.inl (List.mem_map.mpr ⟨m, ?_, rfl⟩)))
  exact Array.mem_toList_iff.mpr (Array.mem_of_getElem? hm)

end Assembly

theorem Asks.listed {k k' : Key} (h : Asks a k k') : k'.Listed a := by
  cases h with
  | needed _ hlisted => exact hlisted
  | leaf _ hleaf =>
    cases k' with
    | shape s => trivial
    | constant type bits => trivial
    | _ => simp [Key.stage] at hleaf

/-! ## One worker -/

namespace WorkerPool

/-- One worker that constructs entry points, after a number of steps. -/
def alone (a : Assembly) (entries : List EntryPoint) (steps : Nat) : WorkerPool :=
  (WorkerPool.start a [entries]).follow a (List.replicate steps 0)

/-- What the first worker has under way, innermost first. -/
def underway (pool : WorkerPool) : List Key :=
  pool.board.keys 0

/-- The first worker is about to ask for a key, and does so for the construction of another one. -/
def Asking (pool : WorkerPool) (outer inner : Key) : Prop :=
  ∃ next frames, pool.threads[0]? = some ⟨.construct outer, .run (.request inner next), frames⟩

theorem alone_succ (a : Assembly) (entries : List EntryPoint) (n : Nat) :
    alone a entries (n + 1) =
      ((alone a entries n).step (recipes a) 0).getD (alone a entries n) := by
  have hfollow : ∀ (n : Nat) (pool : WorkerPool), pool.follow a (List.replicate (n + 1) 0) =
      ((pool.follow a (List.replicate n 0)).step (recipes a) 0).getD
        (pool.follow a (List.replicate n 0)) := by
    intro n
    induction n with
    | zero => exact fun _ => rfl
    | succ n ih => exact fun pool => ih ((pool.step (recipes a) 0).getD pool)
  exact hfollow n _

/-- Every step is a turn. -/
theorem turn_alone (a : Assembly) (entries : List EntryPoint) (n : Nat) :
    Turn ((alone a entries n).underway, (alone a entries n).slots)
      ((alone a entries (n + 1)).underway, (alone a entries (n + 1)).slots) := by
  rw [alone_succ]
  cases hstep : (alone a entries n).step (recipes a) 0 with
  | none => exact .goes _ _
  | some pool => exact Machine.step_slots hstep

/-- A worker alone keeps to the regime of the assembly. -/
theorem governed_alone (hnumbered : a.Numbered) (entries : List EntryPoint) (n : Nat) :
    ∃ h, ((regime a).discipline (Rooted a entries)).Governed (fun _ _ _ => True)
      (alone a entries n) h := by
  have hknown : ∀ k, Rooted a entries k → (regime a).known k := by
    rintro k ⟨entry, -, m, -, rfl⟩
    trivial
  refine Regime.governed_follow (regime_lawful hnumbered) hknown Emission.empty (fun task htask => ?_)
    (List.replicate n 0)
  obtain rfl := List.mem_singleton.mp htask
  exact ⟨_, _, entryPoints_obeys (Constructible a)⟩

/-- What a construction asks for is listed. -/
theorem listed_of_asking (hnumbered : a.Numbered) {n : Nat} {outer inner : Key}
    (h : (alone a entries n).Asking outer inner) : inner.Listed a := by
  obtain ⟨next, frames, hthread⟩ := h
  obtain ⟨_, hm⟩ := governed_alone hnumbered entries n
  exact Asks.listed (Regime.asks_of_request hm hthread)

/-- There are slots for the functions of entry points, and for what is listed. -/
theorem listed_of_mem_slots (hnumbered : a.Numbered) {n : Nat} {k : Key}
    (hk : k ∈ (alone a entries n).slots) : Rooted a entries k ∨ k.Listed a := by
  obtain ⟨_, hm⟩ := governed_alone hnumbered entries n
  obtain ⟨-, root, hroot, hpath⟩ := hm.known k (Machine.mem_slots_iff.mp hk)
  rcases hpath.cases_tail with heq | ⟨_, -, hasks⟩
  · exact .inl (heq ▸ hroot)
  · exact .inr hasks.listed

/-- As many constructions can be under way at one time. -/
theorem length_underway_le (hnumbered : a.Numbered) (entries : List EntryPoint) (n : Nat) :
    (alone a entries n).underway.length ≤ a.keyTotal + a.types.size + 3 := by
  obtain ⟨_, hm⟩ := governed_alone hnumbered entries n
  rw [← a.length_places_add_one]
  exact Regime.length_keys_le hm (regime_bounded hnumbered) 0

/-- As many functions, variables and types are ever begun. -/
theorem length_composite_slots_le (hnumbered : a.Numbered) (entries : List EntryPoint) (n : Nat) :
    ((alone a entries n).slots.filter Key.Composite).length ≤
      a.methods.size + a.keyTotal + a.fields.size + a.types.size := by
  rw [← a.length_composites]
  have hnodup : ((alone a entries n).slots.filter Key.Composite).Nodup :=
    (Machine.nodup_slots _).filter _
  refine (List.subperm_of_subset hnodup fun k hk => ?_).length_le
  obtain ⟨hslot, hcomposite⟩ := List.mem_filter.mp hk
  rcases listed_of_mem_slots hnumbered hslot with hroot | hlisted
  · exact Assembly.mem_composites_of_rooted hroot
  · exact Assembly.mem_composites_of_listed hnumbered (of_decide_eq_true hcomposite) hlisted

/-- A worker alone comes to its end, with a result, and takes no step after that. -/
theorem exists_last (hnumbered : a.Numbered) (entries : List EntryPoint) :
    ∃ last result w, ∀ n, last ≤ n →
      alone a entries n = ⟨[Thread.ended (some result)], w⟩ := by
  obtain ⟨result, s, hrun⟩ : ∃ result s,
      Session.start.run a (Construct.entryPoints a entries) = (.returned result, s) := by
    rcases outcome_entryPoints hnumbered (Regime.Clean.start _) entries with
      ⟨s, hrun, -⟩ | ⟨e, s, hrun, -⟩
    · exact ⟨_, s, hrun⟩
    · exact ⟨_, s, hrun⟩
  obtain ⟨w, ⟨last, hlast⟩, -⟩ := Task.execute_leads hrun
  refine ⟨last, result, w, fun n hle => ?_⟩
  induction n, hle using Nat.le_induction with
  | base => exact hlast
  | succ n _ ih =>
    rw [alone_succ, ih]
    rfl

end WorkerPool

/-- Compiling returns, whatever the assembly and the entry points are.  The worker that constructs the
entry points takes finitely many steps, without a limit on how deep constructions nest: each construction
that it begins takes a slot that was free, no key is under way twice, what constructions ask for is listed,
and what is under way at one time, or is ever begun, is bounded by the numbers of methods, fields, types and
function keys of defined types. -/
theorem compile_terminates {a : Assembly} (hbuilt : a.Built) (requested : List EntryPoint)
    (config : Config) :
    let pool := WorkerPool.alone a (firstAppearances requested)
    (∃ result, compile a requested config = .returned result) ∧
      (∃ last result w, ∀ n, last ≤ n → pool n = ⟨[Thread.ended (some result)], w⟩) ∧
      ∀ n, Turn ((pool n).underway, (pool n).slots) ((pool (n + 1)).underway, (pool (n + 1)).slots) ∧
        (pool n).underway.Nodup ∧ (pool n).slots.Nodup ∧
        (∀ outer inner, (pool n).Asking outer inner → inner.Listed a) ∧
        (∀ k ∈ (pool n).slots, Rooted a (firstAppearances requested) k ∨ k.Listed a) ∧
        (pool n).underway.length ≤ a.keyTotal + a.types.size + 3 ∧
        ((pool n).slots.filter Key.Composite).length ≤
          a.methods.size + a.keyTotal + a.fields.size + a.types.size := by
  intro pool
  refine ⟨(compile_fails_as_alone hbuilt requested config).1,
    WorkerPool.exists_last hbuilt.numbered _, fun n => ?_⟩
  obtain ⟨_, hm⟩ := WorkerPool.governed_alone hbuilt.numbered (firstAppearances requested) n
  exact ⟨WorkerPool.turn_alone a _ n, hm.coherent.nodup 0, Machine.nodup_slots _,
    fun _ _ => WorkerPool.listed_of_asking hbuilt.numbered,
    fun _ => WorkerPool.listed_of_mem_slots hbuilt.numbered,
    WorkerPool.length_underway_le hbuilt.numbered _ n,
    WorkerPool.length_composite_slots_le hbuilt.numbered _ n⟩

section Swapper

open Il (Operation)

/-- A method without parameters that calls a generic one, which calls itself with its arguments swapped. -/
def swapperWith (swaps mains : List Operation) (locals : List TypeId) : Assembly where
  name := "swapper"
  types := #[⟨⟨0⟩, "F", .plain, [], []⟩, ⟨⟨1⟩, "T", .genericParameter, [], []⟩,
    ⟨⟨2⟩, "U", .genericParameter, [], []⟩, ⟨⟨3⟩, "A", .plain, [], []⟩]
  fields := #[]
  methods := #[
    { id := ⟨0⟩, owner := ⟨0⟩, name := "swap", fullName := "F::swap", returnType := none,
      parameters := [⟨1⟩, ⟨2⟩], locals := [], attributes := [.static],
      code := swaps.foldl (fun code op => code.push op.encode) .empty },
    { id := ⟨1⟩, owner := ⟨0⟩, name := "main", fullName := "F::main", returnType := none,
      parameters := [], locals := locals, attributes := [.static],
      code := mains.foldl (fun code op => code.push op.encode) .empty }]
  typeNames := [("A", ⟨3⟩), ("U", ⟨2⟩), ("T", ⟨1⟩), ("F", ⟨0⟩)]

/-- The generic method is first called with values of two types. -/
def swapper : Assembly :=
  swapperWith [.call none 0 [1, 0]] [.call none 0 [0, 1]] [⟨0⟩, ⟨3⟩]

theorem swapper_built : swapper.Built := by
  have htypes := (((Assembly.Built.empty "swapper").addType "F" .plain []).addType "T"
    .genericParameter []).addType "U" .genericParameter []
  have hswap := (htypes.addType "A" .plain []).defineMethod ⟨0⟩ "swap" none [⟨1⟩, ⟨2⟩] [.static] rfl
  have hmain : (swapperWith [] [] []).Built := hswap.defineMethod ⟨0⟩ "main" none [] [.static] rfl
  have hlocal : (swapperWith [] [] [⟨0⟩]).Built := hmain.addLocal ⟨1⟩ ⟨0⟩ rfl
  have hlocals : (swapperWith [] [] [⟨0⟩, ⟨3⟩]).Built := hlocal.addLocal ⟨1⟩ ⟨3⟩ rfl
  have hswaps : (swapperWith [.call none 0 [1, 0]] [] [⟨0⟩, ⟨3⟩]).Built :=
    hlocals.push ⟨0⟩ (Operation.call none 0 [1, 0]).encode rfl
  exact hswaps.push ⟨1⟩ (Operation.call none 0 [0, 1]).encode rfl

example : compile swapper [⟨⟨1⟩, .fragment⟩] .standard =
    .returned (.error (.cyclic (.function ⟨⟨0⟩, [⟨0⟩, ⟨3⟩]⟩))) := by
  decide +kernel

/-- The method that calls itself with its arguments swapped comes to an end, with at most twenty-four
constructions under way and at most twenty-three functions and types begun. -/
theorem swapper_terminates :
    swapper.Built ∧ (∃ result, compile swapper [⟨⟨1⟩, .fragment⟩] .standard = .returned result) ∧
      ∀ n, (WorkerPool.alone swapper [⟨⟨1⟩, .fragment⟩] n).underway.length ≤ 24 ∧
        ((WorkerPool.alone swapper [⟨⟨1⟩, .fragment⟩] n).slots.filter Key.Composite).length ≤ 23 := by
  obtain ⟨hreturns, -, hsteps⟩ := compile_terminates swapper_built [⟨⟨1⟩, .fragment⟩] .standard
  refine ⟨swapper_built, hreturns, fun n => ?_⟩
  obtain ⟨-, -, -, -, -, hunderway, hslots⟩ := hsteps n
  exact ⟨hunderway, hslots⟩

end Swapper

end ShaderLowering
