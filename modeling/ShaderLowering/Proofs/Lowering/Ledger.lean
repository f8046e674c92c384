import ShaderLowering.Proofs.Lowering.Forms
import ShaderLowering.Proofs.Threads.Governed

/-!
# The ledger of a run

The discipline that lowering keeps to.  Constructions note which names they give ids to, which
variables they decorate and which they expose.  The history of notes accounts for everything that is
written down (`Account`): the declarations are those of the names in their order, the annotations and
the list of global variables those of the fields noted.  Each note is made under the key that the name
belongs to, and since a key is constructed at most once no name gets two ids.

What is known of a key before it is constructed is how it came to be asked for: every type, variable
and function is `Reached` from the roots of the run, every shape and every constant is mentioned by
one of these.  What holds of a value afterwards is that it is what the assembly says, with ids in the
place of names.
-/

namespace ShaderLowering

open Construction
open Relation (ReflTransGen TransGen)
open Spirv (Id Word)

/-- A remark of a construction about what it has done. -/
inductive Note where
  | issue (n : Name)
  | decorate (field : FieldId)
  | expose (field : FieldId)
  deriving DecidableEq, Repr

namespace Note

/-- The name that a note says has got an id. -/
def issued? : Note → Option Name
  | .issue n => some n
  | _ => none

/-- The field whose variable a note says is decorated. -/
def decorated? : Note → Option FieldId
  | .decorate f => some f
  | _ => none

/-- The field whose variable a note says is exposed. -/
def exposed? : Note → Option FieldId
  | .expose f => some f
  | _ => none

end Note

/-- The notes of all constructions, each with the key of the construction that made it. -/
abbrev History := List (Key × Note)

/-! ## What a history tells -/

section History

/-- What the notes of one kind are about, in their order. -/
def noted {β : Type} (about? : Note → Option β) (h : History) : List β :=
  h.filterMap fun e => about? e.2

/-- The names that have ids, in the order in which they got them. -/
def names (h : History) : List Name :=
  noted Note.issued? h

/-- The fields whose variables have been decorated. -/
def decorated (h : History) : List FieldId :=
  noted Note.decorated? h

/-- The fields whose variables have been exposed. -/
def exposed (h : History) : List FieldId :=
  noted Note.exposed? h

/-- The notes made under a key. -/
def notes (h : History) (k : Key) : List Note :=
  (h.filter fun e => e.1 = k).map Prod.snd

variable {h : History} {k : Key}

@[simp] theorem names_append (h l : History) : names (h ++ l) = names h ++ names l :=
  List.filterMap_append

@[simp] theorem decorated_append (h l : History) :
    decorated (h ++ l) = decorated h ++ decorated l :=
  List.filterMap_append

@[simp] theorem exposed_append (h l : History) : exposed (h ++ l) = exposed h ++ exposed l :=
  List.filterMap_append

@[simp] theorem notes_append (h l : History) (k : Key) :
    notes (h ++ l) k = notes h k ++ notes l k := by
  simp [notes]

theorem mem_noted {β : Type} {about? : Note → Option β} {make : β → Note}
    (hmake : ∀ note b, about? note = some b ↔ note = make b) {b : β} :
    b ∈ noted about? h ↔ ∃ k, (k, make b) ∈ h := by
  constructor
  · intro hb
    obtain ⟨⟨k, note⟩, hmem, hnote⟩ := List.mem_filterMap.mp hb
    obtain rfl := (hmake note b).mp hnote
    exact ⟨k, hmem⟩
  · rintro ⟨k, hmem⟩
    exact List.mem_filterMap.mpr ⟨(k, make b), hmem, (hmake _ b).mpr rfl⟩

theorem mem_names {n : Name} : n ∈ names h ↔ ∃ k, (k, Note.issue n) ∈ h :=
  mem_noted fun note n' => by cases note <;> simp [Note.issued?]

theorem mem_decorated {f : FieldId} : f ∈ decorated h ↔ ∃ k, (k, Note.decorate f) ∈ h :=
  mem_noted fun note f' => by cases note <;> simp [Note.decorated?]

theorem mem_exposed {f : FieldId} : f ∈ exposed h ↔ ∃ k, (k, Note.expose f) ∈ h :=
  mem_noted fun note f' => by cases note <;> simp [Note.exposed?]

theorem mem_notes {note : Note} : note ∈ notes h k ↔ (k, note) ∈ h := by
  constructor
  · intro hn
    obtain ⟨⟨k', note'⟩, hfilter, rfl⟩ := List.mem_map.mp hn
    obtain ⟨hmem, hk⟩ := List.mem_filter.mp hfilter
    obtain rfl : k' = k := by simpa using hk
    exact hmem
  · intro hmem
    exact List.mem_map.mpr ⟨(k, note), List.mem_filter.mpr ⟨hmem, by simp⟩, rfl⟩

theorem notes_eq_nil (hne : ∀ e ∈ h, e.1 ≠ k) : notes h k = [] := by
  have hnone : (h.filter fun e => decide (e.1 = k)) = [] :=
    List.filter_eq_nil_iff.mpr fun e he => by simpa using hne e he
  rw [notes, hnone, List.map_nil]

end History

/-- An id stands for a name. -/
def Stands (ν : List Name) (n : Name) (id : Id) : Prop :=
  n ∈ ν ∧ id = ident ν n

theorem Stands.append {ν : List Name} {n : Name} {id : Id} (h : Stands ν n id) (l : List Name) :
    Stands (ν ++ l) n id :=
  ⟨List.mem_append_left l h.1, h.2.trans (ident_append h.1 l).symm⟩

/-- The location that the variable behind a field is decorated with. -/
def Assembly.location? (a : Assembly) (id : FieldId) : Option Word :=
  (a.field? id).bind FieldDef.location?

/-- The global variable behind a field, with ids in the place of names. -/
def Assembly.globalVariable (a : Assembly) (ν : List Name) (id : FieldId) : GlobalVariable :=
  ⟨ident ν (.global id), id, a.storage id, ident ν (.value (a.fieldType id))⟩

theorem Assembly.globalVariable_append {a : Assembly} {ν : List Name} {f : FieldId}
    (hf : .global f ∈ ν) (htype : .value (a.fieldType f) ∈ ν) (l : List Name) :
    a.globalVariable (ν ++ l) f = a.globalVariable ν f := by
  rw [globalVariable, globalVariable, ident_append hf, ident_append htype]

/-! ## What is written down -/

/-- The history accounts for everything that has been written down. -/
structure Account (a : Assembly) (h : History) (e : Emission) : Prop where
  issued : e.ids.issued = (names h).length
  nodup : (names h).Nodup
  grounded : Grounded a (names h)
  genuine : ∀ n ∈ names h, n.Genuine a
  keyed : ∀ k n, (k, Note.issue n) ∈ h → n.key (names h) = k
  declared : e.declared = (names h).filterMap fun n => n.line? a (names h)
  decorations : ∀ k f, (k, Note.decorate f) ∈ h → k = .variable f ∧ Name.global f ∈ names h
  annotated : e.annotated = (decorated h).map fun f =>
    decoration (ident (names h) (.global f)) ((a.location? f).getD 0)
  exposures : ∀ k f, (k, Note.expose f) ∈ h →
    k = .variable f ∧ Name.global f ∈ names h ∧ Name.value (a.fieldType f) ∈ names h
  globals : e.globals = (exposed h).map (a.globalVariable (names h))

namespace Account

variable {a : Assembly} {h : History} {e : Emission} {k : Key}

theorem empty : Account a [] Emission.empty where
  issued := rfl
  nodup := List.nodup_nil
  grounded := Grounded.nil
  genuine := nofun
  keyed := nofun
  declared := rfl
  decorations := nofun
  annotated := rfl
  exposures := nofun
  globals := rfl

/-- Under a key, a name that the key has not noted has no id. -/
theorem not_mem_names (hacc : Account a h e) {n : Name} (hkey : n.key (names h) = k)
    (hnew : .issue n ∉ notes h k) : n ∉ names h := by
  intro hn
  obtain ⟨k', hmem⟩ := mem_names.mp hn
  have hsame := (hacc.keyed k' n hmem).symm.trans hkey
  exact hnew (mem_notes.mpr (hsame ▸ hmem))

theorem declared_append (hacc : Account a h e) (n : Name) :
    (names h).filterMap (fun n' => n'.line? a (names h ++ [n])) = e.declared := by
  rw [hacc.declared]
  refine List.filterMap_congr fun n' hn' => ?_
  exact Name.line?_append hn' (hacc.grounded.parts_mem hn') [n]

/-- A name gets the next id, and its declaration is written down. -/
theorem issue (hacc : Account a h e) {n : Name} (hkey : n.key (names h) = k)
    (hparts : ∀ p ∈ n.parts a, p ∈ names h) (hgenuine : n.Genuine a)
    (hnew : .issue n ∉ notes h k) :
    Account a (h ++ [(k, .issue n)])
      { e with
        ids := e.ids.next.2
        declared := e.declared ++ (n.line? a (names h ++ [n])).toList } := by
  have hfresh := hacc.not_mem_names hkey hnew
  -- Only the new name is added; the parts of all others keep their ids.
  have hnames : names (h ++ [(k, .issue n)]) = names h ++ [n] := names_append ..
  constructor
  case issued => simp [hnames, Spirv.IdSource.next, hacc.issued]
  case nodup =>
    rw [hnames]
    refine List.nodup_append.mpr ⟨hacc.nodup, by simp, fun n₁ hn₁ n₂ hn₂ heq => ?_⟩
    rw [heq, List.mem_singleton.mp hn₂] at hn₁
    exact hfresh hn₁
  case grounded =>
    rw [hnames]
    exact hacc.grounded.concat hparts
  case genuine =>
    rw [hnames]
    intro n' hn'
    rcases List.mem_append.mp hn' with hn' | hn'
    · exact hacc.genuine n' hn'
    · rwa [List.mem_singleton.mp hn']
  case keyed =>
    intro k' n' hmem
    rw [hnames]
    rcases List.mem_append.mp hmem with hmem | hmem
    · have hn' := mem_names.mpr ⟨k', hmem⟩
      rw [Name.key_append (hacc.grounded.parts_mem hn'), hacc.keyed k' n' hmem]
    · obtain ⟨rfl, rfl⟩ : k' = k ∧ n' = n := by simpa using hmem
      rw [Name.key_append hparts, hkey]
  case declared =>
    -- An own id of a function has no line, every other name has one.
    rw [hnames, List.filterMap_append, hacc.declared_append]
    cases hline : n.line? a (names h ++ [n]) <;> simp [hline]
  case decorations =>
    intro k' f hmem
    obtain ⟨hk, hf⟩ := hacc.decorations k' f (by simpa using hmem)
    exact ⟨hk, by simp [hnames, hf]⟩
  case annotated =>
    have hdecorated : decorated (h ++ [(k, .issue n)]) = decorated h := by
      simp [decorated, noted, Note.decorated?]
    rw [hacc.annotated, hdecorated, hnames]
    refine List.map_congr_left fun f hf => ?_
    obtain ⟨k', hmem⟩ := mem_decorated.mp hf
    rw [ident_append (hacc.decorations k' f hmem).2]
  case exposures =>
    intro k' f hmem
    obtain ⟨hk, hf, ht⟩ := hacc.exposures k' f (by simpa using hmem)
    exact ⟨hk, by simp [hnames, hf], by simp [hnames, ht]⟩
  case globals =>
    have hexposed : exposed (h ++ [(k, .issue n)]) = exposed h := by simp [exposed, noted, Note.exposed?]
    rw [hacc.globals, hexposed, hnames]
    refine List.map_congr_left fun f hf => ?_
    obtain ⟨k', hmem⟩ := mem_exposed.mp hf
    obtain ⟨-, hglobal, htype⟩ := hacc.exposures k' f hmem
    rw [Assembly.globalVariable_append hglobal htype]

/-- A variable is decorated. -/
theorem decorate (hacc : Account a h e) {f : FieldId} {location : Word}
    (hf : Name.global f ∈ names h) (hlocation : a.location? f = some location) :
    Account a (h ++ [(.variable f, .decorate f)])
      { e with annotated := e.annotated ++ [decoration (ident (names h) (.global f)) location] } := by
  have hnames : names (h ++ [(.variable f, .decorate f)]) = names h := by simp [names, noted, Note.issued?]
  constructor <;> rw [hnames]
  case issued => exact hacc.issued
  case nodup => exact hacc.nodup
  case grounded => exact hacc.grounded
  case genuine => exact hacc.genuine
  case keyed => exact fun k n hmem => hacc.keyed k n (by simpa using hmem)
  case declared => exact hacc.declared
  case annotated =>
    have hmore : decorated (h ++ [(.variable f, .decorate f)]) = decorated h ++ [f] :=
      decorated_append ..
    simp [hmore, hacc.annotated, hlocation]
  case globals => simpa [exposed, noted, Note.exposed?] using hacc.globals
  case exposures => exact fun k f hmem => hacc.exposures k f (by simpa using hmem)
  case decorations =>
    intro k f' hmem
    rcases List.mem_append.mp hmem with hmem | hmem
    · exact hacc.decorations k f' hmem
    · obtain ⟨rfl, rfl⟩ : k = .variable f ∧ f' = f := by simpa using hmem
      exact ⟨rfl, hf⟩

/-- A variable is exposed. -/
theorem expose (hacc : Account a h e) {f : FieldId} (hf : Name.global f ∈ names h)
    (htype : Name.value (a.fieldType f) ∈ names h) :
    Account a (h ++ [(.variable f, .expose f)])
      { e with globals := e.globals ++ [a.globalVariable (names h) f] } := by
  have hnames : names (h ++ [(.variable f, .expose f)]) = names h := by simp [names, noted, Note.issued?]
  constructor <;> rw [hnames]
  case issued => exact hacc.issued
  case nodup => exact hacc.nodup
  case grounded => exact hacc.grounded
  case genuine => exact hacc.genuine
  case keyed => exact fun k n hmem => hacc.keyed k n (by simpa using hmem)
  case declared => exact hacc.declared
  case annotated => simpa [decorated, noted, Note.decorated?] using hacc.annotated
  case globals =>
    have hmore : exposed (h ++ [(.variable f, .expose f)]) = exposed h ++ [f] := exposed_append ..
    simp [hmore, hacc.globals]
  case decorations => exact fun k f hmem => hacc.decorations k f (by simpa using hmem)
  case exposures =>
    intro k f' hmem
    rcases List.mem_append.mp hmem with hmem | hmem
    · exact hacc.exposures k f' hmem
    · obtain ⟨rfl, rfl⟩ : k = .variable f ∧ f' = f := by simpa using hmem
      exact ⟨rfl, hf, htype⟩

end Account

/-! ## What is known of keys -/

/-- An entity is one of the roots of a run, or needed for them. -/
def Reached (a : Assembly) (roots : Key → Prop) (k : Key) : Prop :=
  ∃ root, roots root ∧ ReflTransGen (Needs a) root k

theorem Reached.needs {a : Assembly} {roots : Key → Prop} {k k' : Key} (h : Reached a roots k)
    (hneeds : Needs a k k') : Reached a roots k' := by
  obtain ⟨root, hroot, hpath⟩ := h
  exact ⟨root, hroot, hpath.tail hneeds⟩

/-- The names that a constructed entity mentions. -/
inductive Mentions (a : Assembly) : Key → Name → Prop
  | type (id : TypeId) : Mentions a (.type id) (.value (a.valueType id))
  | variable (field : FieldId) :
      Mentions a (.variable field) (.pointer (a.storage field) (a.fieldType field))
  | function {key : FunctionKey} {line : Line} {n : Name} (hline : line ∈ a.lines key)
      (hn : n ∈ line.names) : Mentions a (.function key) n

/-- A name is mentioned by an entity that the roots of a run lead to. -/
def Mentioned (a : Assembly) (roots : Key → Prop) (n : Name) : Prop :=
  ∃ k, Reached a roots k ∧ Mentions a k n

/-- A key is that of a name whose declaration can be written down. -/
def Introduced (a : Assembly) (roots : Key → Prop) (h : History) (k : Key) : Prop :=
  ∃ n, n.key (names h) = k ∧ (∀ p ∈ n.parts a, p ∈ names h) ∧ Mentioned a roots n

/-- What is known of a key that is asked for. -/
def Known (a : Assembly) (roots : Key → Prop) (h : History) : Key → Prop
  | .type id => Reached a roots (.type id)
  | .variable field => Reached a roots (.variable field) ∧ Sound a (.variable field)
  | .function key => Reached a roots (.function key)
  | .shape s => Introduced a roots h (.shape s)
  | .constant type bits => Introduced a roots h (.constant type bits)

/-- What the construction of a key may ask for. -/
def MayAsk (a : Assembly) : Key → Key → Prop
  | .shape _, _ | .constant _ _, _ => False
  | _, .shape _ | _, .constant _ _ => True
  | k, k' => Needs a k k'

/-- An id is that of a name that belongs to a key. -/
def Declared (a : Assembly) (ν : List Name) (k : Key) (id : Id) : Prop :=
  ∃ n, n.key ν = k ∧ (∀ p ∈ n.parts a, p ∈ ν) ∧ Stands ν n id

/-- The notes that are made for a global variable, from the first to the last. -/
def variableNotes (a : Assembly) (field : FieldId) : List Note :=
  .issue (.global field) :: (a.location? field).toList.map (fun _ => .decorate field)
    ++ [.expose field]

/-- The notes that are made for a function, from the first to the last. -/
def functionNotes (a : Assembly) (key : FunctionKey) : List Note :=
  match a.specialized? key with
  | none => []
  | some p => (List.range p.taken).map fun n => .issue (p.own n)

/-- The notes that the construction of a key has made when it has ended well, where the key says
them. -/
def settledNotes? (a : Assembly) : Key → Option (List Note)
  | .variable field => some (variableNotes a field)
  | .function key => some (functionNotes a key)
  | _ => none

/-- A global variable is what its field says. -/
structure IsGlobal (a : Assembly) (ν : List Name) (field : FieldId) (v : GlobalVariable) :
    Prop where
  constructible : Constructible a (.variable field)
  variable_mem : Name.global field ∈ ν
  type_mem : Name.value (a.fieldType field) ∈ ν
  eq : v = a.globalVariable ν field

/-- A value is what the assembly says of its key, with ids in the place of names. -/
def Right (a : Assembly) (ν : List Name) : (k : Key) → k.Value → Prop
  | .type id => fun i => Constructible a (.type id) ∧ Stands ν (.value (a.valueType id)) i
  | .shape s => Declared a ν (.shape s)
  | .constant type bits => Declared a ν (.constant type bits)
  | .variable field => IsGlobal a ν field
  | .function key => fun f => f.key = key ∧ Lowered a ν f

/-- What holds of a value that is ready: it is right, a global variable has been decorated and
exposed, and a function has taken all its ids. -/
structure Holds (a : Assembly) (h : History) (k : Key) (v : k.Value) : Prop where
  right : Right a (names h) k v
  notes : ∀ l, settledNotes? a k = some l → notes h k = l

/-- The discipline of lowering, for a run with given roots. -/
@[reducible] def ledger (a : Assembly) (roots : Key → Prop) :
    Discipline lowering Emission Note where
  recipes := recipes a
  inv := Account a
  within e := e.ids.issued < UInt32.size
  known := Known a roots
  needs := MayAsk a
  holds := Holds a
  fails k := ¬Constructible a k

/-! ## Laws -/

section Laws

variable {a : Assembly} {roots : Key → Prop} {h : History} {k : Key}

theorem Introduced.append (hk : Introduced a roots h k) (l : History) :
    Introduced a roots (h ++ l) k := by
  obtain ⟨n, hkey, hparts, hmentioned⟩ := hk
  refine ⟨n, ?_, fun p hp => ?_, hmentioned⟩
  · rw [names_append, Name.key_append hparts, hkey]
  · rw [names_append]
    exact List.mem_append_left _ (hparts p hp)

theorem Known.append (hk : Known a roots h k) (l : History) : Known a roots (h ++ l) k := by
  cases k with
  | shape s => exact Introduced.append hk l
  | constant type bits => exact Introduced.append hk l
  | type id => exact hk
  | «variable» field => exact hk
  | function key => exact hk

theorem Declared.append {ν : List Name} {id : Id} (hk : Declared a ν k id) (l : List Name) :
    Declared a (ν ++ l) k id := by
  obtain ⟨n, hkey, hparts, hstands⟩ := hk
  exact ⟨n, by rw [Name.key_append hparts, hkey],
    fun p hp => List.mem_append_left _ (hparts p hp), hstands.append l⟩

theorem IsGlobal.append {ν : List Name} {field : FieldId} {v : GlobalVariable}
    (hv : IsGlobal a ν field v) (l : List Name) : IsGlobal a (ν ++ l) field v where
  constructible := hv.constructible
  variable_mem := List.mem_append_left l hv.variable_mem
  type_mem := List.mem_append_left l hv.type_mem
  eq := hv.eq.trans (Assembly.globalVariable_append hv.variable_mem hv.type_mem l).symm

theorem Right.append {ν : List Name} {v : k.Value} (hv : Right a ν k v) (l : List Name) :
    Right a (ν ++ l) k v := by
  cases k with
  | type id => exact ⟨hv.1, hv.2.append l⟩
  | shape s => exact Declared.append hv l
  | constant type bits => exact Declared.append hv l
  | «variable» field => exact IsGlobal.append hv l
  | function key => exact ⟨hv.1, hv.2.grow l⟩

theorem Holds.append {v : k.Value} (hv : Holds a h k v) {l : History} (hl : ∀ e ∈ l, e.1 ≠ k) :
    Holds a (h ++ l) k v := by
  refine ⟨by rw [names_append]; exact hv.right.append _, fun l' hl' => ?_⟩
  rw [notes_append, notes_eq_nil hl, List.append_nil, hv.notes l' hl']

theorem Stands.later {h' : History} {n : Name} {id : Id} (hstands : Stands (names h) n id)
    (hbefore : h <+: h') : Stands (names h') n id := by
  obtain ⟨l, rfl⟩ := hbefore
  rw [names_append]
  exact hstands.append _

theorem IsGlobal.later {h' : History} {field : FieldId} {v : GlobalVariable}
    (hv : IsGlobal a (names h) field v) (hbefore : h <+: h') : IsGlobal a (names h') field v := by
  obtain ⟨l, rfl⟩ := hbefore
  rw [names_append]
  exact hv.append _

theorem Lowered.later {h' : History} {f : Function} (hf : Lowered a (names h) f)
    (hbefore : h <+: h') : Lowered a (names h') f := by
  obtain ⟨l, rfl⟩ := hbefore
  rw [names_append]
  exact hf.grow _

/-- Where a key that may be asked for may ask in turn, the one needs the other. -/
theorem MayAsk.needs {k k' k'' : Key} (h : MayAsk a k k') (hnext : MayAsk a k' k'') :
    Needs a k k' := by
  cases k' with
  | shape s => exact hnext.elim
  | constant type bits => exact hnext.elim
  | type id => cases k <;> first | exact h.elim | exact h
  | «variable» field => cases k <;> first | exact h.elim | exact h
  | function key => cases k <;> first | exact h.elim | exact h

theorem needs_of_mayAsk {k' k'' : Key} (hpath : TransGen (MayAsk a) k k')
    (hnext : MayAsk a k' k'') : TransGen (Needs a) k k' := by
  induction hpath generalizing k'' with
  | single hfirst => exact .single (hfirst.needs hnext)
  | tail _ hlast ih => exact (ih hlast).tail (hlast.needs hnext)

theorem not_constructible_of_mayAsk (hcycle : TransGen (MayAsk a) k k) : ¬Constructible a k := by
  obtain ⟨k', hfirst, -⟩ := TransGen.head'_iff.mp hcycle
  exact not_constructible_of_cycle (needs_of_mayAsk hcycle hfirst)

end Laws

end ShaderLowering
