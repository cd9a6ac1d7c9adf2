import Reputation.Linear.Matrix

/-!
# Power iteration

The trust vector `t` is the limit of `t ↦ (1 - alpha) · Cᵗ t + alpha · p`, where `C` is the matrix of
local trust and `p` the pre-trust vector. `PowerIteration.step` is one such step,
`PowerIteration.converge` repeats it from `p` until the change falls below `epsilon`, or the limit
is reached; the outcome is kept, so only the first call iterates.
-/

namespace Reputation

open Number

/-- How far a power iteration has come. -/
inductive Progress (K : Type) where
  | notStarted
  /-- The last change was below epsilon. -/
  | converged (iterations : Nat) (trust : Vec K)
  /-- The limit was reached first. -/
  | exhausted (iterations : Nat) (trust : Vec K)
deriving Repr, Inhabited

namespace Progress

variable {K : Type}

/-- Number of steps made. -/
def iterations : Progress K → Nat
  | notStarted => 0
  | converged n _ | exhausted n _ => n

/-- The trust vector, once there is one. -/
def trust? : Progress K → Option (Vec K)
  | notStarted => none
  | converged _ t | exhausted _ t => some t

/-- Did the iteration settle? -/
def hasConverged : Progress K → Bool
  | converged .. => true
  | _ => false

end Progress

/-- **A power iteration** over a square matrix with one row for each entry of the pre-trust. -/
structure PowerIteration (K : Type) where
  preTrust : Vec K
  matrix : Matrix K
  limit : Nat
  epsilon : K
  alpha : K
  progress : Progress K
  square : matrix.rows = matrix.cols
  rows_eq : matrix.rows = preTrust.size

namespace PowerIteration

variable {K : Type}

/-- A fresh iteration; the matrix has to be square and to fit the pre-trust. -/
def start (preTrust : Vec K) (matrix : Matrix K) (limit : Nat) (epsilon alpha : K) :
    Except TrustError (PowerIteration K) :=
  if square : matrix.rows = matrix.cols then
    if rows_eq : matrix.rows = preTrust.size then
      .ok { preTrust, matrix, limit, epsilon, alpha, progress := .notStarted, square, rows_eq }
    else .error (.preTrustSize matrix.rows preTrust.size)
  else .error (.notSquare matrix.rows matrix.cols)

variable [Number K]

/-- One step from the vector `t`. -/
def step (p : PowerIteration K) (t : Vec K) : Except TrustError (Vec K) := do
  let propagated ← p.matrix.transposeMultiply t
  (propagated.scale (one - p.alpha)).add (p.preTrust.scale p.alpha)

/-- Steps on from `t`, which was reached after `done` steps, for at most `remaining` more; tells
whether it settled, after how many steps and where. -/
def iterate (p : PowerIteration K) (t : Vec K) (done : Nat) :
    Nat → Except TrustError (Bool × Nat × Vec K)
  | 0 => .ok (false, done, t)
  | remaining + 1 => do
    let next ← p.step t
    let change ← next.distance t
    if lt change p.epsilon then .ok (true, done + 1, next)
    else p.iterate next (done + 1) remaining

/-- **The trust vector**, scaled to absolute sum one, and the iteration that remembers it. -/
def converge (p : PowerIteration K) : Except TrustError (Vec K × PowerIteration K) :=
  match p.progress.trust? with
  | some t => .ok (t, p)
  | none => do
    let (settled, n, t) ← p.iterate p.preTrust 0 p.limit
    let t := t.normalize
    .ok (t, { p with progress := if settled then .converged n t else .exhausted n t })

end PowerIteration

end Reputation
