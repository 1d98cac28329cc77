import Mathlib

/-!
# Consumers that are fed in chunks

A consumer is called with what is left of its input and a flag that says whether more can come. It
answers with the input that it did not use. The input arrives in chunks: each chunk is appended to
the rest of the one before, and after an error the remaining chunks are dropped. `Resumable` says
when the cuts make no difference (`feedAll_flatten`).
-/

namespace Alto.Lib

variable {B S : Type}

/-- What a call of a consumer comes to: the rest of the input and a new state, an error, or
undefined behaviour. -/
inductive Consumed (B S : Type) where
  | ok (rest : List B) (s : S)
  | error (s : S)
  | undefined
deriving DecidableEq, Repr

/-- A consumer between two chunks. -/
inductive Feed (B S : Type) where
  | more (rest : List B) (s : S)
  | failed (s : S)

namespace Consumed

/-- The final state, and whether there was an error. -/
def result : Consumed B S → Option (S × Bool)
  | ok _ s => some (s, false)
  | error s => some (s, true)
  | undefined => none

/-- A call that has an error on record already. -/
def resultFailed : Consumed B S → Option (S × Bool)
  | ok _ s => some (s, true)
  | error s => some (s, true)
  | undefined => none

/-- What is kept of a call for the next chunk. -/
def next : Consumed B S → Option (Feed B S)
  | ok rest s => some (.more rest s)
  | error s => some (.failed s)
  | undefined => none

end Consumed

section Feed

variable (consume : Bool → List B → S → Consumed B S)

/-- One more chunk. -/
def Feed.chunk : Feed B S → List B → Option (Feed B S)
  | .more rest s, chunk => (consume false (rest ++ chunk) s).next
  | .failed s, _ => some (.failed s)

/-- The end of the input. -/
def Feed.close : Feed B S → Option (S × Bool)
  | .more rest s => (consume true rest s).result
  | .failed s => (consume true [] s).resultFailed

/-- All chunks and the end. -/
def Feed.all : Feed B S → List (List B) → Option (S × Bool)
  | feed, [] => feed.close consume
  | feed, chunk :: chunks => (feed.chunk consume chunk).bind fun feed => Feed.all feed chunks

/-- The whole input in one chunk, and the end. -/
def settle (input : List B) (s : S) : Option (S × Bool) :=
  (consume false input s).next.bind (Feed.close consume)

/-- A consumer for which it makes no difference that it has been called early. -/
structure Resumable : Prop where
  resume : ∀ {input rest s s'}, consume false input s = .ok rest s' →
    ∀ more, settle consume (input ++ more) s = settle consume (rest ++ more) s'
  error : ∀ {input s s'}, consume false input s = .error s' →
    ∀ more, consume false (input ++ more) s = .error s'
  undefined : ∀ {input s}, consume false input s = .undefined →
    ∀ more, consume false (input ++ more) s = .undefined

variable {consume}

theorem Feed.all_failed (s : S) (chunks : List (List B)) :
    Feed.all consume (.failed s) chunks = (Feed.failed s).close consume := by
  induction chunks with
  | nil => rfl
  | cons chunk chunks ih => exact ih

/-- From a consumer that would do nothing on a call before the next chunk. -/
theorem Resumable.all_eq (hr : Resumable consume) {rest : List B} {s : S}
    (hidle : (Feed.more rest s).close consume = settle consume rest s) (chunks : List (List B)) :
    Feed.all consume (.more rest s) chunks = settle consume (rest ++ chunks.flatten) s := by
  induction chunks generalizing rest s with
  | nil => simpa [Feed.all] using hidle
  | cons chunk chunks ih =>
    rw [Feed.all, Feed.chunk, List.flatten_cons, ← List.append_assoc]
    cases hc : consume false (rest ++ chunk) s with
    | ok rest' s' =>
      have hidle' : (Feed.more rest' s').close consume = settle consume rest' s' := by
        have hnil := hr.resume hc []
        rw [List.append_nil, List.append_nil] at hnil
        rw [← hnil, settle, hc]
        rfl
      rw [hr.resume hc]
      exact ih hidle'
    | error s' =>
      rw [settle, hr.error hc]
      exact Feed.all_failed s' chunks
    | undefined =>
      rw [settle, hr.undefined hc]
      rfl

/-- The cuts make no difference. -/
theorem Resumable.feedAll_flatten (hr : Resumable consume) {s : S}
    (hstart : consume false [] s = .ok [] s) (chunks : List (List B)) :
    Feed.all consume (.more [] s) chunks = settle consume chunks.flatten s := by
  apply hr.all_eq
  rw [settle, hstart]
  rfl

end Feed

/-- A consumer that goes on from its rest exactly as from the whole input. -/
def Continues (consume : List B → S → Consumed B S) : Prop :=
  ∀ input s more,
    match consume input s with
    | .ok rest s' => consume (input ++ more) s = consume (rest ++ more) s'
    | .error s' => consume (input ++ more) s = .error s'
    | .undefined => consume (input ++ more) s = .undefined

theorem Continues.resumable {consume : Bool → List B → S → Consumed B S}
    (hc : Continues (consume false)) : Resumable consume where
  resume {input rest s s'} h more := by
    have hmore := hc input s more
    rw [h] at hmore
    rw [settle, settle, hmore]
  error {input s s'} h more := by
    have hmore := hc input s more
    rwa [h] at hmore
  undefined {input s} h more := by
    have hmore := hc input s more
    rwa [h] at hmore

end Alto.Lib
