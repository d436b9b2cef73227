import Versioning.Proofs.Lookup
import Versioning.Proofs.Version.Checked

/-! Computations that look versions up and can do nothing about one that is not found: they end with
its error.  They may also get stuck, where they need something that is not there.  If such a script
realizes a computation, this has both properties: it never gets stuck, and the first error that it
meets is its outcome. -/

namespace Versioning

/-- A computation that asks for versions, ends at the first that is not found, and may get stuck. -/
inductive Script (α : Type) where
  | done (value : α)
  | fail (error : FormatError)
  | stuck
  | ask (text : String) (next : Version → Script α)

namespace Script

variable {α β : Type}

/-- The script that goes on with the value of another. -/
protected def bind (step : α → Script β) : Script α → Script β
  | done value => step value
  | fail error => fail error
  | stuck => stuck
  | ask text next => ask text fun v => (next v).bind step

instance : Monad Script where
  pure := done
  bind script step := script.bind step

theorem bind_done (script : Script α) : script.bind done = script := by
  induction script with
  | done => rfl
  | fail => rfl
  | stuck => rfl
  | ask text next ih => exact congrArg (ask text) (funext ih)

theorem bind_assoc {γ : Type} (script : Script α) (f : α → Script β) (g : β → Script γ) :
    (script.bind f).bind g = script.bind fun value => (f value).bind g := by
  induction script with
  | done => rfl
  | fail => rfl
  | stuck => rfl
  | ask text next ih => exact congrArg (ask text) (funext ih)

instance : LawfulMonad Script := .mk' Script bind_done (fun _ _ => rfl) bind_assoc

def ofExcept : Except FormatError α → Script α
  | .ok value => done value
  | .error error => fail error

/-- The value that is there; without one the script is stuck. -/
def ofOption : Option α → Script α
  | some value => done value
  | none => stuck

def version (text : List Char) : Script Version := ask (String.ofList text) done

/-- The outcome when each version is read from its text; there is none for a script that gets
stuck. -/
def run : Script α → Option (Except FormatError α)
  | done value => some (.ok value)
  | fail error => some (.error error)
  | stuck => none
  | ask text next => do
    match ← Checked.parse text with
    | .ok v => (next v).run
    | .error error => return .error error

end Script

namespace Lookup

variable {α : Type}

/-- The errors that the computation meets when each version is read from its text. -/
def met : Lookup α → List FormatError
  | done _ => []
  | fail error => [error]
  | ask text next =>
    (match Version.parse text with
      | .ok _ => []
      | .error error => [error]) ++ (next (Version.parse text)).met

theorem mem_met_of_run_eq_error {computation : Lookup α} {e : FormatError}
    (h : computation.run = .error e) : e ∈ computation.met := by
  induction computation with
  | done => cases h
  | fail => exact List.mem_singleton.mpr (Except.error.inj h).symm
  | ask text next ih => exact List.mem_append_right _ (ih _ h)

end Lookup

namespace Script

variable {α β γ : Type} {s : Script α} {c : Lookup α}

/-- The script asks the same questions and ends in the same way; an error for an answer ends the
computation. -/
inductive Realizes : Script α → Lookup α → Prop where
  | done (value : α) : Realizes (.done value) (.done value)
  | fail (error : FormatError) : Realizes (.fail error) (.fail error)
  | ask {text : String} {next : Version → Script α} {answer : Except FormatError Version → Lookup α}
    (hfail : ∀ e, answer (.error e) = .fail e) (hnext : ∀ v, Realizes (next v) (answer (.ok v))) :
    Realizes (.ask text next) (.ask text answer)

namespace Realizes

theorem pure (a : α) : Realizes (Pure.pure a) (Pure.pure a) := .done a

theorem ofExcept (outcome : Except FormatError α) :
    Realizes (.ofExcept outcome) (.ofExcept outcome) := by
  cases outcome with
  | ok a => exact .done a
  | error e => exact .fail e

theorem version (text : List Char) : Realizes (.version text) (.version text) :=
  .ask (fun _ => rfl) fun v => .done v

theorem bind {f : α → Script β} {g : α → Lookup β} (h : Realizes s c)
    (hnext : ∀ a, Realizes (f a) (g a)) : Realizes (s >>= f) (c >>= g) := by
  induction h with
  | done a => exact hnext a
  | fail e => exact .fail e
  | ask hfail _ ih => exact .ask (fun e => by rw [hfail]; rfl) ih

theorem map (f : α → β) (h : Realizes s c) : Realizes (f <$> s) (f <$> c) := by
  rw [← bind_pure_comp, ← bind_pure_comp]
  exact h.bind fun a => .pure (f a)

/-- Where the value is there, the script goes on with it. -/
theorem ofOption_bind {o : Option γ} {x : γ} {f : γ → Script α} (ho : o = some x)
    (h : Realizes (f x) c) : Realizes (.ofOption o >>= f) c := by
  subst ho
  exact h

/-- Where each value is there, taking it is the same as a map. -/
theorem mapOption {f : α → Option β} {g : α → β} (hf : ∀ a, f a = some (g a)) (h : Realizes s c) :
    Realizes (do .ofOption (f (← s))) (g <$> c) := by
  rw [← bind_pure_comp]
  refine h.bind fun a => ?_
  rw [hf]
  exact .pure (g a)

theorem mapM {f : γ → Script α} {g : γ → Lookup α} (xs : List γ)
    (h : ∀ x, Realizes (f x) (g x)) : Realizes (xs.mapM f) (xs.mapM g) := by
  induction xs with
  | nil => exact .pure []
  | cons x xs ih =>
    rw [List.mapM_cons, List.mapM_cons]
    exact (h x).bind fun y => ih.bind fun ys => .pure (y :: ys)

theorem foldlM {f : α → γ → Script α} {g : α → γ → Lookup α} (xs : List γ)
    (h : ∀ a x, Realizes (f a x) (g a x)) (init : α) :
    Realizes (xs.foldlM f init) (xs.foldlM g init) := by
  induction xs generalizing init with
  | nil => exact .pure init
  | cons x xs ih =>
    rw [List.foldlM_cons, List.foldlM_cons]
    exact (h init x).bind ih

/-- What a script realizes never gets stuck. -/
theorem run_eq (h : Realizes s c) : s.run = some c.run := by
  induction h with
  | done => rfl
  | fail => rfl
  | @ask text next answer hfail _ ih =>
    rw [Script.run, Lookup.run, Checked.parse_eq, Option.bind_eq_bind, Option.bind_some]
    cases Version.parse text with
    | ok v => exact ih v
    | error e =>
      rw [hfail]
      rfl

/-- The first error that is met is the outcome. -/
theorem run_of_mem_met (h : Realizes s c) {e : FormatError} (he : e ∈ c.met) :
    c.run = .error e := by
  induction h with
  | done => cases he
  | fail e' => rw [List.mem_singleton.mp he, Lookup.run]
  | @ask text next answer hfail _ ih =>
    rw [Lookup.met] at he
    rw [Lookup.run]
    cases hv : Version.parse text with
    | ok v =>
      rw [hv] at he
      exact ih v (by simpa using he)
    | error e' =>
      rw [hv, hfail] at he
      have heq : e = e' := by simpa [Lookup.met] using he
      rw [hfail, heq, Lookup.run]

theorem exists_run_eq_ok_iff (h : Realizes s c) : (∃ a, c.run = .ok a) ↔ c.met = [] := by
  constructor
  · rintro ⟨a, ha⟩
    refine List.eq_nil_iff_forall_not_mem.mpr fun e he => ?_
    rw [h.run_of_mem_met he] at ha
    cases ha
  · intro hmet
    cases hrun : c.run with
    | ok a => exact ⟨a, rfl⟩
    | error e =>
      have he := Lookup.mem_met_of_run_eq_error hrun
      rw [hmet] at he
      cases he

end Realizes

end Script

end Versioning
