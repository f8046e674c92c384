import ShaderLowering.Proofs.Threads.Waits

/-!
# Disciplined construction

A rely-guarantee logic for construction tasks.  Constructions keep *notes* of what they have done;
the notes of all threads form one history, which only grows, and each note bears the key of the
construction that made it.  What a task may rely on is that nobody else makes notes in its name;
what it guarantees is that its own notes keep the state that all tasks share in order.

A `Discipline` says what is to hold: `inv` of the shared state in the light of the history, `known`
of keys that are asked for, `holds` of values that are ready, `fails` of keys whose construction was
given up, and `abandoned` of the notes that it has left then.  `needs` is the relation between a key and
the keys that its construction may ask for; a key that needs itself must fail, which is what makes
refusals on account of a cycle lawful.  What is refused is still under way elsewhere, so a refusal says
nothing of what its construction leaves.

`Discipline.Safe` is the weakest precondition of a task, by recursion on the task.  What threads ask for
on their own account may be left to whoever runs them: under a discipline with `trusted` threads it is
taken for granted that they ask for known keys only.

`Governed.step` and `Governed.follow` say that a lawful discipline is kept by every step of every
machine, under every schedule, as long as the shared state stays within its limits.
-/

namespace ShaderLowering.Construction

open Relation (ReflTransGen TransGen)

/-- What constructions keep to: which notes go with which shared state, and what the notes say of
keys and values.  `within` are limits of the shared state beyond which nothing is promised. -/
structure Discipline (I : Interface) (σ ν : Type) where
  recipes : Recipes I σ
  inv : List (I.Key × ν) → σ → Prop
  within : σ → Prop
  known : List (I.Key × ν) → I.Key → Prop
  needs : I.Key → I.Key → Prop
  holds : List (I.Key × ν) → (k : I.Key) → I.Value k → Prop
  fails : I.Key → Prop
  abandoned : List (I.Key × ν) → I.Key → Prop := fun _ _ => True
  trusted : Prop := False

namespace Discipline

variable {I : Interface} {σ ν : Type} (D : Discipline I σ ν)

/-- The history has grown, but not by notes made for the goal itself. -/
def Relies (g : Goal I.Key) (h h' : List (I.Key × ν)) : Prop :=
  ∃ l, h' = h ++ l ∧ ∀ n ∈ l, g ≠ .construct n.1

/-- A moment at which a task for a goal may take its next step. -/
structure Later (g : Goal I.Key) (h h' : List (I.Key × ν)) (s : σ) : Prop where
  relies : Relies g h h'
  inv : D.inv h' s
  within : D.within s

/-- A task for a goal may ask for a key. -/
def Allows : Goal I.Key → I.Key → Prop
  | .top, _ => True
  | .construct k, k' => D.needs k k'

/-- What is taken for granted of a key that a task for a goal asks for: a trusted thread asks for known
keys on its own account. -/
def Vouched (g : Goal I.Key) (h : List (I.Key × ν)) (k : I.Key) : Prop :=
  D.trusted → g = .top → D.known h k

/-- What an answer to a request for a key amounts to. -/
def Answers (h : List (I.Key × ν)) (k : I.Key) : Result I (I.Value k) → Prop
  | .ok v => D.holds h k v
  | .error _ => D.fails k

/-- What the end of the construction of a key amounts to. -/
def Concludes (h : List (I.Key × ν)) (k : I.Key) : Result I (I.Value k) → Prop
  | .ok v => D.holds h k v
  | .error _ => D.fails k ∧ D.abandoned h k

/-- Whatever happens between its steps, a task for a goal does not panic, asks only for keys that it
may ask for, keeps the shared state in order, and ends with what `Q` says. -/
def Safe (g : Goal I.Key) {β : Type} : List (I.Key × ν) → Task I β →
    (List (I.Key × ν) → Result I β → Prop) → Prop
  | h, .done r, Q => ∀ h' s, D.Later g h h' s → Q h' r
  | h, .panic, _ => ∀ h' s, ¬D.Later g h h' s
  | h, .act a next, Q => ∀ h' s, D.Later g h h' s → D.within (D.recipes.act a s).2 →
      ∃ l, (∀ n ∈ l, g = .construct n.1) ∧ D.inv (h' ++ l) (D.recipes.act a s).2 ∧
        Safe g (h' ++ l) (next (D.recipes.act a s).1) Q
  | h, .peek _ _, _ => ∀ h' s, ¬D.Later g h h' s
  | h, .request r next, Q => ∀ h' s, D.Later g h h' s → D.Vouched g h' (I.key r) →
      D.known h' (I.key r) ∧ D.Allows g (I.key r) ∧
        ∀ result, D.Answers h' (I.key r) result → Safe g h' (next result) Q

/-- The laws of a discipline: what is known stays known, what holds of a value or of what was given up
holds as long as nobody makes notes in the name of its key, a key that needs itself fails, the limits
were kept before if they are kept now, and every factory does what is asked of it. -/
structure Lawful : Prop where
  within_of_act : ∀ a s, D.within (D.recipes.act a s).2 → D.within s
  known_append : ∀ h l k, D.known h k → D.known (h ++ l) k
  holds_append : ∀ h l k v, (∀ n ∈ l, n.1 ≠ k) → D.holds h k v → D.holds (h ++ l) k v
  abandoned_append : ∀ h l k, (∀ n ∈ l, n.1 ≠ k) → D.abandoned h k → D.abandoned (h ++ l) k
  fails_of_cycle : ∀ k, TransGen D.needs k k → D.fails k
  factory : ∀ r h, D.known h (I.key r) → (∀ n ∈ h, n.1 ≠ I.key r) →
    D.Safe (.construct (I.key r)) h (D.recipes.factory r) fun h' result =>
      D.Concludes h' (I.key r) result

/-! ## Reasoning about tasks -/

theorem Relies.refl (g : Goal I.Key) (h : List (I.Key × ν)) : Relies g h h :=
  ⟨[], by simp⟩

theorem Relies.trans {g : Goal I.Key} {h h' h'' : List (I.Key × ν)} (hfirst : Relies g h h')
    (hsecond : Relies g h' h'') : Relies g h h'' := by
  obtain ⟨l, rfl, hl⟩ := hfirst
  obtain ⟨l', rfl, hl'⟩ := hsecond
  refine ⟨l ++ l', List.append_assoc .., fun n hn => ?_⟩
  rcases List.mem_append.mp hn with hn | hn
  · exact hl n hn
  · exact hl' n hn

theorem prefix_of_relies {g : Goal I.Key} {h h' : List (I.Key × ν)} (hrelies : Relies g h h') :
    h <+: h' := by
  obtain ⟨l, rfl, -⟩ := hrelies
  exact List.prefix_append h l

variable {D} {g : Goal I.Key} {h h' : List (I.Key × ν)} {s : σ} {α β : Type}

theorem Concludes.answers {k : I.Key} {result : Result I (I.Value k)}
    (hends : D.Concludes h k result) : D.Answers h k result := by
  cases result with
  | ok v => exact hends
  | error e => exact hends.1

theorem Answers.concludes {k : I.Key} {result : Result I (I.Value k)}
    (habandoned : D.abandoned h k) (hanswer : D.Answers h k result) : D.Concludes h k result := by
  cases result with
  | ok v => exact hanswer
  | error e => exact ⟨hanswer, habandoned⟩

theorem Later.of_relies {h'' : List (I.Key × ν)} (hrelies : Relies g h h')
    (hlater : D.Later g h' h'' s) : D.Later g h h'' s :=
  ⟨hrelies.trans hlater.relies, hlater.inv, hlater.within⟩

/-- What a task does later it may do later still. -/
theorem Safe.later {t : Task I α} {Q : List (I.Key × ν) → Result I α → Prop}
    (hrelies : Relies g h h') (hsafe : D.Safe g h t Q) : D.Safe g h' t Q := by
  cases t with
  | done r => exact fun h'' s hlater => hsafe h'' s (hlater.of_relies hrelies)
  | panic => exact fun h'' s hlater => hsafe h'' s (hlater.of_relies hrelies)
  | act a next => exact fun h'' s hlater => hsafe h'' s (hlater.of_relies hrelies)
  | peek k next => exact fun h'' s hlater => hsafe h'' s (hlater.of_relies hrelies)
  | request r next => exact fun h'' s hlater => hsafe h'' s (hlater.of_relies hrelies)

theorem Later.now (hlater : D.Later g h h' s) : D.Later g h' h' s :=
  ⟨.refl g h', hlater.inv, hlater.within⟩

/-- It is enough that a task is safe whenever it may take a step. -/
theorem Safe.of_later {t : Task I α} {Q : List (I.Key × ν) → Result I α → Prop}
    (hsafe : ∀ h' s, D.Later g h h' s → D.Safe g h' t Q) : D.Safe g h t Q := by
  cases t with
  | done r => exact fun h' s hlater => hsafe h' s hlater h' s hlater.now
  | panic => exact fun h' s hlater => hsafe h' s hlater h' s hlater.now
  | act a next => exact fun h' s hlater => hsafe h' s hlater h' s hlater.now
  | peek k next => exact fun h' s hlater => hsafe h' s hlater h' s hlater.now
  | request r next => exact fun h' s hlater => hsafe h' s hlater h' s hlater.now

theorem Safe.mono {t : Task I α} {Q Q' : List (I.Key × ν) → Result I α → Prop}
    (himp : ∀ h' r, Q h' r → Q' h' r) (hsafe : D.Safe g h t Q) : D.Safe g h t Q' := by
  induction t generalizing h with
  | done r => exact fun h' s hlater => himp _ _ (hsafe h' s hlater)
  | panic => exact hsafe
  | act a next ih =>
    intro h' s hlater hwithin
    obtain ⟨l, hown, hinv, hnext⟩ := hsafe h' s hlater hwithin
    exact ⟨l, hown, hinv, ih _ hnext⟩
  | peek k next => exact hsafe
  | request r next ih =>
    intro h' s hlater hvouched
    obtain ⟨hknown, hallowed, hnext⟩ := hsafe h' s hlater hvouched
    exact ⟨hknown, hallowed, fun result hanswer => ih _ (hnext result hanswer)⟩

/-- At its end a task finds the shared state in order. -/
theorem Safe.and_inv {t : Task I α} {Q : List (I.Key × ν) → Result I α → Prop}
    (hsafe : D.Safe g h t Q) :
    D.Safe g h t fun h' r => (∃ s, D.inv h' s ∧ D.within s) ∧ Q h' r := by
  induction t generalizing h with
  | done r => exact fun h' s hlater => ⟨⟨s, hlater.inv, hlater.within⟩, hsafe h' s hlater⟩
  | panic => exact hsafe
  | act a next ih =>
    intro h' s hlater hwithin
    obtain ⟨l, hown, hinv, hnext⟩ := hsafe h' s hlater hwithin
    exact ⟨l, hown, hinv, ih _ hnext⟩
  | peek k next => exact hsafe
  | request r next ih =>
    intro h' s hlater hvouched
    obtain ⟨hknown, hallowed, hnext⟩ := hsafe h' s hlater hvouched
    exact ⟨hknown, hallowed, fun result hanswer => ih _ (hnext result hanswer)⟩

/-- A task that goes on is safe if what it goes on with is safe for every value that it may have. -/
theorem Safe.bind {t : Task I α} {f : α → Task I β} {Q : List (I.Key × ν) → Result I β → Prop}
    (hsafe : D.Safe g h t fun h' r => match r with
      | .ok a => D.Safe g h' (f a) Q
      | .error e => Q h' (.error e)) : D.Safe g h (t.bind f) Q := by
  induction t generalizing h with
  | done r =>
    cases r with
    | ok a => exact .of_later hsafe
    | error e => exact hsafe
  | panic => exact hsafe
  | act a next ih =>
    intro h' s hlater hwithin
    obtain ⟨l, hown, hinv, hnext⟩ := hsafe h' s hlater hwithin
    exact ⟨l, hown, hinv, ih _ hnext⟩
  | peek k next => exact hsafe
  | request r next ih =>
    intro h' s hlater hvouched
    obtain ⟨hknown, hallowed, hnext⟩ := hsafe h' s hlater hvouched
    exact ⟨hknown, hallowed, fun result hanswer => ih _ (hnext result hanswer)⟩

end Discipline

end ShaderLowering.Construction
