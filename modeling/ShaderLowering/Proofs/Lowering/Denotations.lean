import ShaderLowering.Proofs.Lowering.Keys
import ShaderLowering.Proofs.Lowering.ValueTypes

/-!
# What front-end types denote

A front-end type with a platform representation denotes what the segments of the representation's name
say, and every other one denotes the struct of its own, if the types of its instance fields denote
something (`Denotes`).  The names of representations are described here by how they are written: their
segments are what stands between backticks, and numbers are written in decimal (`Decimal`).

A type denotes one thing at most (`Denotes.unique`), and in an assembly that is built by definitions it
denotes something if and only if it can be constructed (`constructible_iff_denotes`): what a name is looked
up under is then the type that was defined last under it (`Built.findType?_eq`).
-/

namespace ShaderLowering

open Spirv (Word)

/-! ## Names of representations -/

/-- A text is a number that fits a word, in decimal: at least one digit, after a plus sign or not. -/
def Decimal (text : String) (w : Word) : Prop :=
  ∃ digits : List Char, (text.toList = digits ∨ text.toList = '+' :: digits) ∧ digits ≠ [] ∧
    (∀ c ∈ digits, c.isDigit) ∧ w.toNat = Nat.ofDigitChars 10 digits 0

/-- What stands between the backticks of the name of a representation. -/
def representationSegments (name : String) : List String :=
  (name.toList.splitOn '\x60').map String.ofList

theorem digitsFrom_eq_some {read n : Nat} {digits : List Char} : digitsFrom read digits = some n ↔
    (∀ c ∈ digits, c.isDigit) ∧ n = Nat.ofDigitChars 10 digits read := by
  induction digits generalizing read with
  | nil =>
    rw [digitsFrom, Option.some_inj]
    exact ⟨fun hread => ⟨nofun, hread.symm⟩, fun h => h.2.symm⟩
  | cons c digits ih =>
    rw [digitsFrom, Nat.ofDigitChars_cons]
    by_cases hc : c.isDigit = true
    · rw [if_pos hc, ih]
      simp [hc]
    · rw [if_neg hc]
      simp [hc]

/-- A word is read off digits if and only if they are those of the word. -/
theorem wordFrom_eq_some {w : Word} {digits : List Char} :
    ((digitsFrom 0 digits).bind fun n => if n < UInt32.size then some (UInt32.ofNat n) else none) =
      some w ↔ (∀ c ∈ digits, c.isDigit) ∧ w.toNat = Nat.ofDigitChars 10 digits 0 := by
  rw [Option.bind_eq_some_iff]
  constructor
  · rintro ⟨n, hn, hw⟩
    obtain ⟨hdigits, rfl⟩ := digitsFrom_eq_some.mp hn
    split at hw
    · next hlt =>
      obtain rfl := Option.some.inj hw
      exact ⟨hdigits, UInt32.toNat_ofNat_of_lt' hlt⟩
    · cases hw
  · rintro ⟨hdigits, hw⟩
    refine ⟨w.toNat, digitsFrom_eq_some.mpr ⟨hdigits, hw⟩, ?_⟩
    rw [if_pos w.toNat_lt, UInt32.ofNat_toNat]

theorem number?_eq_some {text : List Char} {w : Word} :
    number? text = some w ↔ Decimal (String.ofList text) w := by
  rw [Decimal, String.toList_ofList]
  -- A sign is at most one, so the digits are told by whether the text begins with it.
  by_cases hsign : ∃ rest, text = '+' :: rest
  · obtain ⟨rest, rfl⟩ := hsign
    have hrest : number? ('+' :: rest) = some w ↔
        rest ≠ [] ∧ (∀ c ∈ rest, c.isDigit) ∧ w.toNat = Nat.ofDigitChars 10 rest 0 := by
      cases rest with
      | nil => simp [number?]
      | cons c rest => exact wordFrom_eq_some.trans (by simp)
    rw [hrest]
    constructor
    · exact fun h => ⟨rest, .inr rfl, h⟩
    · rintro ⟨digits, rfl | hsame, h⟩
      · -- A plus sign is no digit.
        exact absurd (h.2.1 '+' List.mem_cons_self) (by decide)
      · rwa [(List.cons.inj hsame).2]
  · have htext : number? text = some w ↔
        text ≠ [] ∧ (∀ c ∈ text, c.isDigit) ∧ w.toNat = Nat.ofDigitChars 10 text 0 := by
      cases text with
      | nil => simp [number?]
      | cons c rest =>
        unfold number?
        split
        · next rest' heq => exact absurd ⟨rest', heq⟩ hsign
        · exact wordFrom_eq_some.trans (by simp)
    rw [htext]
    constructor
    · exact fun h => ⟨text, .inl rfl, h⟩
    · rintro ⟨digits, rfl | hsame, h⟩
      · exact h
      · exact absurd ⟨digits, hsame⟩ hsign

theorem segments_eq_splitOn (separator : Char) (text : List Char) :
    segments separator text = text.splitOn separator := by
  induction text with
  | nil => rfl
  | cons c text ih =>
    rw [segments, ih, List.splitOn, List.splitOn, List.splitOnP_cons_eq_if_modifyHead]
    obtain ⟨first, others, hsplit⟩ :=
      List.exists_cons_of_ne_nil (List.splitOnP_ne_nil (· == separator) text)
    simp [hsplit]

namespace Representation

/-- How a name is written that asks for a type: segments beyond those that its head takes are ignored. -/
inductive Written : List String → Representation → Prop
  | void (rest : List String) : Written ("OpTypeVoid" :: rest) .void
  | int {w s : String} {width sign : Word} (hwidth : Decimal w width) (hsign : Decimal s sign)
      (rest : List String) : Written ("OpTypeInt" :: w :: s :: rest) (.int width (sign != 0))
  | float {w : String} {width : Word} (hwidth : Decimal w width) (rest : List String) :
      Written ("OpTypeFloat" :: w :: rest) (.float width)
  | vector {k : String} {size : Word} (element : String) (hsize : Decimal k size)
      (rest : List String) : Written ("OpTypeVector" :: element :: k :: rest) (.vector element (some size))

theorem ofSegments_of_written {segments : List (List Char)} {r : Representation}
    (h : Written (segments.map String.ofList) r) : ofSegments segments = r := by
  -- The texts are split as the constructors have them, and what follows the arguments is arbitrary.
  generalize htexts : segments.map String.ofList = texts at h
  have hnumber : ∀ {text : List Char} {s : String} {w : Word}, String.ofList text = s →
      Decimal s w → number? text = some w := by
    rintro text _ w rfl hw
    exact number?_eq_some.mpr hw
  cases h with
  | void rest =>
    obtain ⟨head, arguments, rfl, hhead, -⟩ := List.map_eq_cons_iff.mp htexts
    simp [ofSegments, hhead]
  | int hwidth hsign rest =>
    obtain ⟨head, arguments, rfl, hhead, harguments⟩ := List.map_eq_cons_iff.mp htexts
    obtain ⟨w, arguments, rfl, hw, harguments⟩ := List.map_eq_cons_iff.mp harguments
    obtain ⟨s, arguments, rfl, hs, -⟩ := List.map_eq_cons_iff.mp harguments
    simp [ofSegments, hhead, hnumber hw hwidth, hnumber hs hsign]
  | float hwidth rest =>
    obtain ⟨head, arguments, rfl, hhead, harguments⟩ := List.map_eq_cons_iff.mp htexts
    obtain ⟨w, arguments, rfl, hw, -⟩ := List.map_eq_cons_iff.mp harguments
    simp [ofSegments, hhead, hnumber hw hwidth]
  | vector element hsize rest =>
    obtain ⟨head, arguments, rfl, hhead, harguments⟩ := List.map_eq_cons_iff.mp htexts
    obtain ⟨n, arguments, rfl, hn, harguments⟩ := List.map_eq_cons_iff.mp harguments
    obtain ⟨k, arguments, rfl, hk, -⟩ := List.map_eq_cons_iff.mp harguments
    simp [ofSegments, hhead, hn, hnumber hk hsize]

theorem written_ofSegments {a : Assembly} {segments : List (List Char)}
    (h : (ofSegments segments).Supported a) :
    Written (segments.map String.ofList) (ofSegments segments) := by
  rcases segments with _ | ⟨head, arguments⟩
  · exact h.elim
  rw [List.map_cons]
  unfold ofSegments at h ⊢
  dsimp only at h ⊢
  split at h
  · next hhead =>
    rw [hhead]
    exact .void _
  · next hhead =>
    rw [hhead]
    rcases arguments with _ | ⟨w, _ | ⟨s, rest⟩⟩
    · exact h.elim
    · simp [Supported] at h
    · cases hw : number? w <;> cases hs : number? s <;> simp [hw, hs, Supported] at h ⊢
      exact .int (number?_eq_some.mp hw) (number?_eq_some.mp hs) _
  · next hhead =>
    rw [hhead]
    rcases arguments with _ | ⟨w, rest⟩
    · exact h.elim
    · cases hw : number? w <;> simp [hw, Supported] at h ⊢
      exact .float (number?_eq_some.mp hw) _
  · next hhead =>
    rw [hhead]
    rcases arguments with _ | ⟨n, _ | ⟨k, rest⟩⟩
    · exact h.elim
    · simp [Supported] at h
    · cases hk : number? k <;> simp [hk, Supported] at h ⊢
      exact .vector _ (number?_eq_some.mp hk) _
  · exact h.elim

theorem Written.parse_eq {name : String} {r : Representation}
    (h : Written (representationSegments name) r) : parse name = r := by
  rw [parse, segments_eq_splitOn]
  exact ofSegments_of_written h

theorem Written.eq {name : String} {r r' : Representation}
    (h : Written (representationSegments name) r) (h' : Written (representationSegments name) r') :
    r = r' :=
  h.parse_eq.symm.trans h'.parse_eq

theorem written_parse {a : Assembly} {name : String} (h : (parse name).Supported a) :
    Written (representationSegments name) (parse name) := by
  rw [parse, segments_eq_splitOn] at h ⊢
  exact written_ofSegments h

end Representation

/-! ## Names of types -/

namespace Assembly

/-- The type that was defined last under a name. -/
def newest? (a : Assembly) (name : String) : Option TypeDef :=
  a.types.toList.reverse.find? fun t => t.name = name

/-- The names of the types with their numbers, in the order of their definition. -/
def typeEntries (a : Assembly) : List (String × TypeId) :=
  a.types.toList.map fun t => (t.name, t.id)

/-- The types of an assembly have the numbers of their places, and their names are listed, the newest
first. -/
structure Indexed (a : Assembly) : Prop where
  ids : a.typeEntries.map Prod.snd = (List.range a.types.size).map EntityId.ofIndex
  names : a.typeNames = a.typeEntries.reverse

/-- What leaves alone how many types there are, and their numbers and names, keeps them indexed. -/
theorem Indexed.congr {a a' : Assembly} (h : a.Indexed) (hentries : a'.typeEntries = a.typeEntries)
    (hnames : a'.typeNames = a.typeNames) : a'.Indexed := by
  have hsize : a'.types.size = a.types.size := by
    simpa [typeEntries] using congrArg List.length hentries
  exact ⟨by rw [hentries, hsize, h.ids], by rw [hentries, hnames, h.names]⟩

theorem typeEntries_modify (a : Assembly) (index : Nat) (fields : List FieldId → List FieldId) :
    (a.types.modify index fun t => { t with fields := fields t.fields }).toList.map
      (fun t => (t.name, t.id)) = a.typeEntries := by
  refine List.ext_getElem? fun i => ?_
  rw [typeEntries, List.getElem?_map, List.getElem?_map, Array.getElem?_toList, Array.getElem?_toList,
    Array.getElem?_modify]
  split <;> cases a.types[i]? <;> rfl

/-- In an assembly that can be built types are indexed. -/
theorem Built.indexed {a : Assembly} (h : a.Built) : a.Indexed := by
  induction h with
  | empty name => exact ⟨rfl, rfl⟩
  | @addType a _ name kind attributes ih =>
    -- A new type comes after the others, under the number of them.
    have hentries : (a.addType name kind attributes).2.typeEntries =
        a.typeEntries ++ [(name, EntityId.ofIndex a.types.size)] := by
      simp [Assembly.addType, typeEntries]
    have hsize : (a.addType name kind attributes).2.types.size = a.types.size + 1 :=
      Array.size_push _
    refine ⟨?_, ?_⟩
    · rw [hentries, hsize, List.range_succ, List.map_append, List.map_append, ih.ids]
      rfl
    · rw [hentries, List.reverse_append, ← ih.names]
      rfl
  | @defineField a a' id _ owner type name attributes hfield ih =>
    unfold Assembly.defineField at hfield
    split at hfield
    · obtain rfl := (Prod.mk.inj (Option.some.inj hfield)).2
      exact ih.congr (a.typeEntries_modify owner.index fun fields => fields ++ [_]) rfl
    · cases hfield
  | defineMethod _ owner name returnType parameters attributes hmethod ih =>
    obtain ⟨t, -, heq⟩ := Option.map_eq_some_iff.mp hmethod
    obtain rfl := (Prod.mk.inj heq).2
    exact ih.congr rfl rfl
  | addLocal _ id type hedit ih =>
    obtain ⟨t, -, heq⟩ := Option.map_eq_some_iff.mp hedit
    obtain rfl := (Prod.mk.inj heq).2
    exact ih.congr rfl rfl
  | push _ id i hedit ih =>
    obtain ⟨t, -, heq⟩ := Option.map_eq_some_iff.mp hedit
    obtain rfl := (Prod.mk.inj heq).2
    exact ih.congr rfl rfl

/-- Where types are indexed, a type is found under its own number. -/
theorem Indexed.type?_id {a : Assembly} (h : a.Indexed) (hsize : a.types.size ≤ UInt32.size)
    {t : TypeDef} (ht : t ∈ a.types.toList) : a.type? t.id = some t := by
  obtain ⟨i, hi, rfl⟩ := List.getElem_of_mem ht
  have hlt : i < a.types.size := by simpa using hi
  have hid : (a.types.toList[i]).id = EntityId.ofIndex i := by
    have hentry := congrArg (fun ids => ids[i]?) h.ids
    simpa [typeEntries, hlt, List.getElem?_range] using hentry
  rw [type?, hid, EntityId.index_ofIndex (hlt.trans_le hsize)]
  simp [hlt]

/-- The type that is found under a name was defined last under it. -/
theorem Built.findType?_eq {a : Assembly} (h : a.Built) (hsize : a.types.size ≤ UInt32.size)
    (name : String) : a.findType? name = a.newest? name := by
  have hlookup : ∀ types : List TypeDef, (∀ t ∈ types, a.type? t.id = some t) →
      ((types.map fun t => (t.name, t.id)).lookup name).bind a.type? =
        types.find? fun t => t.name = name := by
    intro types htypes
    induction types with
    | nil => rfl
    | cons t types ih =>
      rw [List.map_cons, List.lookup_cons]
      by_cases hname : t.name = name
      · simp [hname, htypes t List.mem_cons_self]
      · have hother : (name == t.name) = false := beq_eq_false_iff_ne.mpr (Ne.symm hname)
        rw [hother, List.find?_cons_of_neg (by simpa using hname)]
        exact ih fun t' ht' => htypes t' (List.mem_cons_of_mem t ht')
  rw [findType?, h.indexed.names, typeEntries, ← List.map_reverse]
  exact hlookup _ fun t ht => h.indexed.type?_id hsize (List.mem_reverse.mp ht)

end Assembly

/-! ## Denotations -/

/-- What stands for a front-end type. -/
inductive Denotes (a : Assembly) : TypeId → ValueType → Prop
  | simple {id : TypeId} {t : TypeDef} {name : String} {r : Representation} {type : ValueType}
      (ht : a.type? id = some t) (hplain : t.isGeneric = false)
      (hname : t.representation? = some (some name))
      (hwritten : Representation.Written (representationSegments name) r)
      (hsimple : r.simple? = some type) : Denotes a id type
  | vector {id : TypeId} {t e : TypeDef} {name element : String} {size : Word} {type : ValueType}
      (ht : a.type? id = some t) (hplain : t.isGeneric = false)
      (hname : t.representation? = some (some name))
      (hwritten : Representation.Written (representationSegments name) (.vector element (some size)))
      (hnewest : a.newest? element = some e) (helement : Denotes a e.id type) :
      Denotes a id (.vector type size)
  | struct {id : TypeId} {t : TypeDef} (ht : a.type? id = some t) (hplain : t.isGeneric = false)
      (hstruct : t.representation? = none) (types : FieldDef → ValueType)
      (hfields : ∀ f ∈ a.instanceFields t, Denotes a f.type (types f)) : Denotes a id (.struct id)

section Denotes

variable {a : Assembly} {id : TypeId} {type type' : ValueType}

/-- A type denotes one thing at most. -/
theorem Denotes.unique (h : Denotes a id type) (h' : Denotes a id type') : type = type' := by
  -- The three rules exclude one another by whether there is a name, and by what it reads as.
  induction h generalizing type' with
  | simple ht hplain hname hwritten hsimple =>
    cases h' with
    | simple ht' _ hname' hwritten' hsimple' =>
      obtain rfl := Option.some.inj (ht.symm.trans ht')
      obtain rfl := Option.some.inj (Option.some.inj (hname.symm.trans hname'))
      obtain rfl := hwritten.eq hwritten'
      exact Option.some.inj (hsimple.symm.trans hsimple')
    | vector ht' _ hname' hwritten' =>
      obtain rfl := Option.some.inj (ht.symm.trans ht')
      obtain rfl := Option.some.inj (Option.some.inj (hname.symm.trans hname'))
      obtain rfl := hwritten.eq hwritten'
      cases hsimple
    | struct ht' _ hstruct' =>
      obtain rfl := Option.some.inj (ht.symm.trans ht')
      rw [hname] at hstruct'
      cases hstruct'
  | vector ht hplain hname hwritten hnewest helement ih =>
    cases h' with
    | simple ht' _ hname' hwritten' hsimple' =>
      obtain rfl := Option.some.inj (ht.symm.trans ht')
      obtain rfl := Option.some.inj (Option.some.inj (hname.symm.trans hname'))
      obtain rfl := hwritten.eq hwritten'
      cases hsimple'
    | vector ht' _ hname' hwritten' hnewest' helement' =>
      obtain rfl := Option.some.inj (ht.symm.trans ht')
      obtain rfl := Option.some.inj (Option.some.inj (hname.symm.trans hname'))
      obtain ⟨rfl, hsize⟩ := Representation.vector.inj (hwritten.eq hwritten')
      obtain rfl := Option.some.inj (hnewest.symm.trans hnewest')
      rw [ih helement', Option.some.inj hsize]
    | struct ht' _ hstruct' =>
      obtain rfl := Option.some.inj (ht.symm.trans ht')
      rw [hname] at hstruct'
      cases hstruct'
  | struct ht hplain hstruct types hfields ih =>
    cases h' with
    | simple ht' _ hname' =>
      obtain rfl := Option.some.inj (ht.symm.trans ht')
      rw [hstruct] at hname'
      cases hname'
    | vector ht' _ hname' =>
      obtain rfl := Option.some.inj (ht.symm.trans ht')
      rw [hstruct] at hname'
      cases hname'
    | struct => rfl

theorem Denotes.constructible (hbuilt : a.Built) (hsize : a.types.size ≤ UInt32.size)
    (h : Denotes a id type) : Constructible a (.type id) := by
  induction h with
  | @simple id t name r type ht hplain hname hwritten hsimple =>
    have hparse := hwritten.parse_eq
    have hother : ∀ element size, r ≠ .vector element size := by
      rintro element size rfl
      cases hsimple
    refine Supplied.constructible (supplied_of_supported ht hplain hname ?_ fun element size e hvector => ?_)
    · rw [hparse]
      cases r <;> trivial
    · exact absurd (hparse.symm.trans hvector) (hother element size)
  | @vector id t e name element size type ht hplain hname hwritten hnewest helement ih =>
    have hparse := hwritten.parse_eq
    -- The newest type of a name is the one that is found, as long as there are numbers for all.
    have hfound : a.findType? element = some e := (hbuilt.findType?_eq hsize element).trans hnewest
    refine Supplied.constructible (supplied_of_supported ht hplain hname ?_
      fun element' size' e' hvector hfound' => ?_)
    · rw [hparse]
      exact ⟨by rw [hfound]; rfl, rfl⟩
    · obtain ⟨rfl, -⟩ := Representation.vector.inj (hparse.symm.trans hvector)
      obtain rfl := Option.some.inj (hfound.symm.trans hfound')
      exact ih
  | struct ht hplain hstruct types hfields ih =>
    exact (supplied_of_members ht hplain hstruct ih).constructible

/-- A type that is laid out by the platform denotes what its representation asks for. -/
theorem denotes_of_supported {t : TypeDef} {name : String} (ht : a.type? id = some t)
    (hplain : t.isGeneric = false) (hname : t.representation? = some (some name))
    (hsupported : (Representation.parse name).Supported a) :
    (∃ type, (Representation.parse name).simple? = some type ∧ Denotes a id type) ∨
      ∃ element size, Representation.parse name = .vector element (some size) ∧
        ∀ e type, a.newest? element = some e → Denotes a e.id type →
          Denotes a id (.vector type size) := by
  have hwritten := Representation.written_parse hsupported
  cases hparse : Representation.parse name with
  | void | int _ _ | float _ =>
    rw [hparse] at hwritten
    exact .inl ⟨_, rfl, .simple ht hplain hname hwritten rfl⟩
  | vector element size =>
    rw [hparse] at hwritten hsupported
    obtain ⟨k, hk⟩ := Option.isSome_iff_exists.mp hsupported.2
    subst hk
    exact .inr ⟨element, k, rfl, fun e type hnewest => .vector ht hplain hname hwritten hnewest⟩
  | malformed | unknown =>
    rw [hparse] at hsupported
    exact hsupported.elim

/-- A type denotes something if and only if it can be constructed. -/
theorem constructible_iff_denotes (hbuilt : a.Built) (hsize : a.types.size ≤ UInt32.size) :
    Constructible a (.type id) ↔ ∃ type, Denotes a id type := by
  refine ⟨fun h => ?_, fun ⟨type, h⟩ => h.constructible hbuilt hsize⟩
  -- By induction on what the type needs, which is first what its members or its element denote.
  generalize hk : Key.type id = k at h
  induction h generalizing id with
  | @intro k hsound hneeds ih =>
    subst hk
    have hdenotes : ∀ {id'}, Needs a (.type id) (.type id') → ∃ type, Denotes a id' type :=
      fun hneeded => ih _ hneeded rfl
    obtain ⟨t, ht, hplain, hstruct | ⟨name, hname, hsupported⟩⟩ := hsound
    · have hfields : ∀ f ∈ a.instanceFields t, ∃ type, Denotes a f.type type := fun f hf =>
        hdenotes (.member ht hstruct hf)
      -- One type is chosen for each field.
      have hnonempty : Nonempty ValueType := ⟨.void⟩
      choose! types htypes using hfields
      exact ⟨_, .struct ht hplain hstruct types htypes⟩
    · rcases denotes_of_supported ht hplain hname hsupported with
        ⟨type, -, htype⟩ | ⟨element, size, hparse, hvector⟩
      · exact ⟨type, htype⟩
      · rw [hparse] at hsupported
        obtain ⟨e, he⟩ := Option.isSome_iff_exists.mp hsupported.1
        obtain ⟨type, htype⟩ := hdenotes (.element ht hname hparse he)
        exact ⟨_, hvector e type ((hbuilt.findType?_eq hsize element).symm.trans he) htype⟩

end Denotes

end ShaderLowering
