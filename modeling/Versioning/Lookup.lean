import Versioning.Version.Reader

/-! Computations that look versions up by their texts.  What answers the lookups is left open: they
can be answered by reading each text, or by a memory of texts read before. -/

namespace Versioning

/-- A computation that ends in a value or an error, and before that may ask for the versions of
texts, one after the other. -/
inductive Lookup (α : Type) where
  | done (value : α)
  | fail (error : FormatError)
  | ask (text : String) (next : Except FormatError Version → Lookup α)

namespace Lookup

variable {α β : Type}

/-- The computation that goes on with the value of another. -/
protected def bind (step : α → Lookup β) : Lookup α → Lookup β
  | done value => step value
  | fail error => fail error
  | ask text next => ask text fun answer => (next answer).bind step

instance : Monad Lookup where
  pure := done
  bind computation step := computation.bind step

theorem bind_done (computation : Lookup α) : computation.bind done = computation := by
  induction computation with
  | done => rfl
  | fail => rfl
  | ask text next ih => exact congrArg (ask text) (funext ih)

theorem bind_assoc {γ : Type} (computation : Lookup α) (f : α → Lookup β) (g : β → Lookup γ) :
    (computation.bind f).bind g = computation.bind fun value => (f value).bind g := by
  induction computation with
  | done => rfl
  | fail => rfl
  | ask text next ih => exact congrArg (ask text) (funext ih)

instance : LawfulMonad Lookup := .mk' Lookup bind_done (fun _ _ => rfl) bind_assoc

def ofExcept : Except FormatError α → Lookup α
  | .ok value => done value
  | .error error => fail error

def version (text : List Char) : Lookup Version := ask (String.ofList text) ofExcept

def mapError (change : FormatError → FormatError) : Lookup α → Lookup α
  | done value => done value
  | fail error => fail (change error)
  | ask text next => ask text fun answer => (next answer).mapError change

/-- The outcome when each lookup is answered by reading the text. -/
def run : Lookup α → Except FormatError α
  | done value => .ok value
  | fail error => .error error
  | ask text next => (next (Version.parse text)).run

@[simp] theorem run_pure (value : α) : (pure value : Lookup α).run = .ok value := rfl

@[simp] theorem run_fail (error : FormatError) : (fail error : Lookup α).run = .error error := rfl

@[simp] theorem run_ofExcept (outcome : Except FormatError α) :
    (ofExcept outcome).run = outcome := by
  cases outcome <;> rfl

@[simp] theorem run_version (text : List Char) :
    (version text).run = Version.parse (String.ofList text) := by
  simp [version, run]

@[simp] theorem run_bind (computation : Lookup α) (step : α → Lookup β) :
    (computation >>= step).run = computation.run >>= fun value => (step value).run := by
  induction computation with
  | done => rfl
  | fail => rfl
  | ask text next ih => exact ih _

@[simp] theorem run_mapError (change : FormatError → FormatError) (computation : Lookup α) :
    (computation.mapError change).run = computation.run.mapError change := by
  induction computation with
  | done => rfl
  | fail => rfl
  | ask text next ih => exact ih _

end Lookup

end Versioning
