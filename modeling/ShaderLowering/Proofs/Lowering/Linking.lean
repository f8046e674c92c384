import ShaderLowering.Proofs.Layout.CallOrder
import ShaderLowering.Proofs.Lowering.Lines

/-!
# Functions of a run together

The lowered functions of a run are told apart by their keys (`Lowered.eq_of_key`), and by their ids as
long as the ids fit a word (`Lowered.eq_of_id`).  So the order of functions holds everything that the
entry points reach (`Lowered.mem_callOrder_iff`), and the words of a function read back as its lines
(`Lowered.decode_body`).
-/

namespace ShaderLowering

open Spirv

/-- The calls in a function fit the format: the instruction of a call has a word for each argument
and four more. -/
def Function.CallsFit (f : Function) : Prop :=
  ∀ g ∈ f.callees, g.key.parameters.length + 4 < UInt16.size

/-- A run keeps to the limits of the format: fewer than `2 ^ 32 - 1` ids are issued, and neither a
declaration nor an instruction of a function has more than 65535 words. -/
structure Emission.WithinLimits (e : Emission) (functions : List Function) : Prop where
  ids : e.ids.issued + 1 < UInt32.size
  declarations : ∀ i ∈ e.declared, i.Fits
  calls : ∀ f ∈ functions, ∀ g, f.Below g → g.CallsFit

namespace Lowered

variable {a : Assembly} {ν : List Name} {f g : Function}

theorem callee (hf : Lowered a ν f) (hg : g ∈ f.callees) : Lowered a ν g := by
  obtain ⟨-, -, -, -, -, -, hlowered⟩ := hf
  exact hlowered g hg

theorem reach (hf : Lowered a ν f) (hbelow : f.Below g) : Lowered a ν g := by
  induction hbelow with
  | refl => exact hf
  | tail _ hg ih => exact ih.callee hg

/-- Functions are equal if they have the same parts and callees of the same keys, and callees of the
same key are equal. -/
theorem callees_eq {fs gs : List Function} (hkeys : fs.map Function.key = gs.map Function.key)
    (hsame : ∀ f ∈ fs, ∀ g ∈ gs, f.key = g.key → f = g) : fs = gs := by
  induction fs generalizing gs with
  | nil => exact (List.map_eq_nil_iff.mp hkeys.symm).symm
  | cons f fs ih =>
    cases gs with
    | nil => cases hkeys
    | cons g gs =>
      obtain ⟨hkey, hrest⟩ := List.cons.inj hkeys
      rw [hsame f List.mem_cons_self g List.mem_cons_self hkey,
        ih hrest fun f' hf' g' hg' => hsame f' (List.mem_cons_of_mem f hf') g'
          (List.mem_cons_of_mem g hg')]

/-- A run has one function for a key. -/
theorem eq_of_key (hf : Lowered a ν f) (hg : Lowered a ν g) (hkey : f.key = g.key) : f = g := by
  induction hf generalizing g with
  | @intro f hid hreturn hbody _ _ hcallees _ ih =>
    obtain ⟨hid', hreturn', hbody', -, -, hcallees', hlowered'⟩ := hg
    rw [← hkey] at hid' hreturn' hbody' hcallees'
    have hsame : f.callees = g.callees :=
      callees_eq (hcallees.trans hcallees'.symm) fun f' hf' g' hg' heq =>
        ih f' hf' (hlowered' g' hg') heq
    obtain ⟨id, key, returnType, body, callees⟩ := f
    obtain ⟨id', key', returnType', body', callees'⟩ := g
    obtain rfl : key = key' := hkey
    obtain rfl : callees = callees' := hsame
    obtain rfl : id = id' := hid.trans hid'.symm
    obtain rfl : returnType = returnType' := hreturn.trans hreturn'.symm
    obtain rfl : body = body' := hbody.trans hbody'.symm
    rfl

/-- A run has one function for an id. -/
theorem eq_of_id (hsize : ν.length < UInt32.size) (hf : Lowered a ν f) (hg : Lowered a ν g)
    (hid : f.id = g.id) : f = g := by
  have hsame : ident ν (.own f.key 0) = ident ν (.own g.key 0) := by
    rw [← hf.ids.1, hid, hg.ids.1]
  have hname := ident_injective hsize hf.id_mem.1 hg.id_mem.1 hsame
  exact hf.eq_of_key hg (Name.own.inj hname).1

/-- The order of functions holds everything that the entry points reach. -/
theorem mem_callOrder_iff (hsize : ν.length < UInt32.size) {entries : List Function}
    (hentries : ∀ f ∈ entries, Lowered a ν f) :
    g ∈ Layout.callOrder entries ↔ ∃ f ∈ entries, f.Below g :=
  Layout.mem_callOrder_iff (U := Lowered a ν) (fun _ hf _ hg => hf.callee hg)
    (fun _ _ hf hg hid => hf.eq_of_id hsize hg hid) hentries

/-- The functions in their order are lowered. -/
theorem of_mem_callOrder {entries : List Function} (hentries : ∀ f ∈ entries, Lowered a ν f)
    (hg : g ∈ Layout.callOrder entries) : Lowered a ν g := by
  obtain ⟨f, hf, hbelow⟩ := Layout.below_of_mem_callOrderFrom hg
  exact (hentries f hf).reach hbelow

/-- The lines of a function fit the format if the calls in it do. -/
theorem fits (hf : Lowered a ν f) (hcalls : f.CallsFit) :
    ∀ line ∈ a.lines f.key, (line.under ν).Fits := by
  obtain ⟨-, -, -, -, hconstructible, hcallees, -⟩ := hf
  obtain ⟨p, hp⟩ := hconstructible.specialized
  have hcalled : f.callees.map Function.key = p.calledBy a p.method.code.instructions := by
    rw [hcallees, Assembly.callees, hp]
  rw [Assembly.lines, hp]
  refine Specialized.fits_of_mem_lines (fun callee hcallee => ?_) ν
  rw [← hcalled] at hcallee
  obtain ⟨g, hg, rfl⟩ := List.mem_map.mp hcallee
  exact hcalls g hg

/-- The words of a function read back as its lines. -/
theorem decode_body (hf : Lowered a ν f) (hcalls : f.CallsFit) :
    Instruction.decode f.body = (a.lines f.key).map (Line.under ν) := by
  have hfits := hf.fits hcalls
  obtain ⟨-, -, hbody, -, -, -, -⟩ := hf
  rw [hbody, wordsAt, ← List.flatMap_map]
  refine Instruction.decode_flatMap_encode fun i hi => ?_
  obtain ⟨line, hline, rfl⟩ := List.mem_map.mp hi
  exact hfits line hline

/-- The first line of a function begins it. -/
theorem lines_eq (hf : Lowered a ν f) : ∃ type signature,
    a.lines f.key = ⟨.function, [.name type, .name (.own f.key 0), .word noFunctionControl,
      .name signature]⟩ :: (a.lines f.key).tail := by
  obtain ⟨p, hp⟩ := hf.constructible.specialized
  obtain ⟨hkey, -, -⟩ := Assembly.specialized?_eq_some.mp hp
  refine ⟨.value (p.returnValue a), p.signature a, ?_⟩
  rw [Assembly.lines, hp, ← hkey]
  rfl

end Lowered

end ShaderLowering
