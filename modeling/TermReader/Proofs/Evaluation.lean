import TermReader.Proofs.WellFormed

/-!
Values of terms. Operators stand for operations on the values of their arguments, as far as a
table of operations says so, and any other term has a value of its own. Over a field products,
quotients and negated terms have their usual values, while powers may mean anything.
-/

namespace TermReader

namespace Term

section Eval

variable {α : Type*} (apply : String → List α → Option α) (other : Term → α)

mutual

/-- The value of a term, from what operators make of the values of their arguments and from the
values of all other terms. -/
def eval : Term → α
  | leaf l => other (leaf l)
  | node op args dims =>
    (if dims.isEmpty then apply op (evalAll args) else none).getD (other (node op args dims))

def evalAll : List Term → List α
  | [] => []
  | x :: xs => eval x :: evalAll xs

end

theorem evalAll_eq_map (xs : List Term) : evalAll apply other xs = xs.map (eval apply other) := by
  induction xs with
  | nil => rfl
  | cons x xs ih => rw [evalAll, ih, List.map_cons]

variable {apply other}

theorem eval_node {op : String} {args : List Term} {a : α}
    (h : apply op (args.map (eval apply other)) = some a) :
    eval apply other (node op args []) = a := by
  rw [eval, evalAll_eq_map, h]
  rfl

end Eval

section Field

variable {K : Type*} [Field K]

/-- The arithmetic of products, with any operation for powers. -/
def arithmetic (power : K → K → K) : String → List K → Option K
  | ".-", [a] => some (-a)
  | "*", as => some as.prod
  | "/", [a, b] => some (a / b)
  | "^", [a, b] => some (power a b)
  | _, _ => none

/-- The value of a term in a field. -/
def value (power : K → K → K) (other : Term → K) : Term → K := eval (arithmetic power) other

variable (power : K → K → K) (other : Term → K)

@[simp] theorem value_leaf (l : Leaf) : value power other (leaf l) = other (leaf l) := rfl

@[simp] theorem value_negated (x : Term) :
    value power other (node ".-" [x] []) = -value power other x :=
  eval_node rfl

@[simp] theorem value_product (xs : List Term) :
    value power other (node "*" xs []) = (xs.map (value power other)).prod :=
  eval_node rfl

@[simp] theorem value_quotient (x y : Term) :
    value power other (node "/" [x, y] []) = value power other x / value power other y :=
  eval_node rfl

@[simp] theorem value_power (x y : Term) :
    value power other (node "^" [x, y] []) = power (value power other x) (value power other y) :=
  eval_node rfl

/-- Multiplies or divides by the value of a further factor. -/
def step (a : K) (y : Token × Term) : K :=
  if y.1 = "/" then a / value power other y.2 else a * value power other y.2

theorem step_mul (a b : K) (y : Token × Term) :
    step power other (a * b) y = a * step power other b y := by
  unfold step
  split
  · exact mul_div_assoc ..
  · exact mul_assoc ..

/-- What stands in front of the factors is multiplied by their product. -/
theorem foldl_step_mul (a b : K) (ys : List (Token × Term)) :
    ys.foldl (step power other) (a * b) = a * ys.foldl (step power other) b := by
  induction ys generalizing b with
  | nil => rfl
  | cons y ys ih => rw [List.foldl_cons, List.foldl_cons, step_mul, ih]

variable {power other} {ys : List (Token × Term)}

theorem value_foldl_node (h : ∀ y ∈ ys, y.1 = "*" ∨ y.1 = "/") (x : Term) :
    value power other (ys.foldl (fun x y => node y.1 [x, y.2] []) x) =
      ys.foldl (step power other) (value power other x) := by
  induction ys generalizing x with
  | nil => rfl
  | cons y ys ih =>
    obtain ⟨hy, hys⟩ := List.forall_mem_cons.1 h
    have hnode : value power other (node y.1 [x, y.2] []) =
        step power other (value power other x) y := by
      rcases hy with hop | hop
      · simp [step, hop]
      · simp [step, hop]
    rw [List.foldl_cons, List.foldl_cons, ih hys, hnode]

theorem foldl_step_of_ne (h : ∀ y ∈ ys, y.1 ≠ "/") (a : K) :
    ys.foldl (step power other) a = a * (ys.map fun y => value power other y.2).prod := by
  induction ys generalizing a with
  | nil => exact (mul_one a).symm
  | cons y ys ih =>
    obtain ⟨hy, hys⟩ := List.forall_mem_cons.1 h
    rw [List.foldl_cons, ih hys, List.map_cons, List.prod_cons, step, if_neg hy, mul_assoc]

/-- However a product is put together, its value is that of its factors from left to right. -/
theorem value_ofProduct (h : ∀ y ∈ ys, y.1 = "*" ∨ y.1 = "/") (x : Term) :
    value power other (ofProduct x ys) = ys.foldl (step power other) (value power other x) := by
  unfold ofProduct
  split
  · next hnil => rw [List.isEmpty_iff.1 hnil, List.foldl_nil]
  split
  · exact value_foldl_node h x
  · next hdivided =>
    have hne : ∀ y ∈ ys, y.1 ≠ "/" := fun y hy hop =>
      hdivided (List.any_eq_true.2 ⟨y, hy, beq_iff_eq.2 hop⟩)
    rw [foldl_step_of_ne hne, value_product, List.map_cons, List.prod_cons, List.map_map]
    rfl

end Field

end Term

/-- Factors are multiplied or divided by. -/
theorem Reads.operator_of_factors {ctx : Context} {ts rest : List Token}
    {ys : List (Token × Term)} (h : Reads ctx (.more .factors) ts ys rest) :
    ∀ y ∈ ys, y.1 = "*" ∨ y.1 = "/" := by
  induction ys generalizing ts with
  | nil => exact fun _ hy => absurd hy List.not_mem_nil
  | cons y ys ih =>
    cases h with
    | step hjoint _ hlater =>
      have hop := Series.operator_mem hjoint
      simp only [Series.operators, List.mem_cons, List.not_mem_nil, or_false] at hop
      exact List.forall_mem_cons.2 ⟨hop, ih hlater⟩

end TermReader
