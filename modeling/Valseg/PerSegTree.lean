import Valseg.Lib.Ensures
import Valseg.SignedEvaluation

/-!
# perSegTree

`bench/external/thealgorithms_persistent_lazy.hpp`: the persistent tree this repository measures
but did not write. Its nodes are shared by pointers and written in place: `lazy` pushes a node's
pending addition into fresh copies of the children, in every version that reaches the node, and so
does every query on its way.

A pointer is the address of a node, the number of nodes made before it. Nodes are counted
references: an assignment that takes the last pointer to a node away frees it (`released`). The
arithmetic on values is the language's, undefined where it overflows.
-/

namespace Valseg

namespace PerSegTree

/-- `class Node`; a pointer may be null. -/
structure Node where
  left : Option ℕ := none
  right : Option ℕ := none
  val : ValueType := 0
  prop : ValueType := 0
  deriving DecidableEq, Repr

/-- The members of the tree, the nodes that were made and those that were freed. -/
structure State where
  nodes : List Node := []
  released : List ℕ := []
  n : ℕ := 0
  ptrs : List ℕ := []
  vec : List ValueType := []
  created : ℕ := 0
  deriving DecidableEq, Repr

abbrev PointerM := EStateM Exception State

/-! ## Pointers -/

/-- A null pointer points to nothing. -/
def pointee : Option ℕ → Except Exception ℕ
  | some a => .ok a
  | none => .error .undefined

/-- `*curr`. -/
def node (curr : ℕ) : PointerM Node := do vectorAt (← get).nodes curr

def setNode (curr : ℕ) (x : Node) : PointerM Unit :=
  modify fun this => { this with nodes := this.nodes.set curr x }

/-- `std::make_shared<Node>(Node())` and `++created`, which follows it at all three places. -/
def makeNode : PointerM ℕ := do
  let this ← get
  set { this with nodes := this.nodes ++ [({} : Node)], created := this.created + 1 }
  return this.nodes.length

/-- A root or a child pointer of some node points to the node. Local pointers are left out: where
an assignment takes a pointer away, none of them points to the same node. -/
def Owned (this : State) (a : ℕ) : Prop :=
  a ∈ this.ptrs ∨ ∃ x ∈ this.nodes, x.left = some a ∨ x.right = some a

instance decidableOwned (this : State) (a : ℕ) : Decidable (Owned this a) :=
  inferInstanceAs (Decidable (_ ∨ _))

/-- The end of a pointer. -/
def release : Option ℕ → PointerM Unit
  | none => return
  | some a => modify fun this =>
      if Owned this a then this else { this with released := this.released ++ [a] }

/-- `curr->left = p`. -/
def assignLeft (curr p : ℕ) : PointerM Unit := do
  let x ← node curr
  setNode curr { x with left := some p }
  release x.left

/-- `curr->right = p`. -/
def assignRight (curr p : ℕ) : PointerM Unit := do
  let x ← node curr
  setNode curr { x with right := some p }
  release x.right

/-- `curr->prop += value`. -/
def addProp (curr : ℕ) (value : ValueType) : PointerM Unit := do
  let x ← node curr
  let prop ← SignedEvaluation.add x.prop value
  setNode curr { x with prop := prop }

/-! ## The private functions -/

def newKid (curr : ℕ) : PointerM ℕ := do
  let newNode ← makeNode
  let x ← node curr
  setNode newNode { left := x.left, right := x.right, prop := x.prop, val := x.val }
  return newNode

/-- `(j - i + 1) * prop`: the length is a 32-bit number. -/
def spread (i j : ℕ) (prop : ValueType) : Except Exception ValueType :=
  SignedEvaluation.mul (.ofNat ((j - i + 1) % 2 ^ 32)) prop

def lazy (i j curr : ℕ) : PointerM Unit := do
  let x ← node curr
  if x.prop = 0 then return
  else do
    let val ← SignedEvaluation.add x.val (← spread i j x.prop)
    setNode curr { x with val := val }
    (if i ≠ j then do
      assignLeft curr (← newKid (← pointee (← node curr).left))
      assignRight curr (← newKid (← pointee (← node curr).right))
      addProp (← pointee (← node curr).left) (← node curr).prop
      addProp (← pointee (← node curr).right) (← node curr).prop
    else pure ())
    setNode curr { (← node curr) with prop := 0 }

/-- The overload on a range of `vec`. -/
def construct (i j : ℕ) : PointerM ℕ := do
  let newNode ← makeNode
  if i = j then do
    setNode newNode { (← node newNode) with val := (← vectorAt (← get).vec i) }
    return newNode
  else if i < j then do
    let mid := Segment.midpoint i j
    let leftt ← construct i mid
    let right ← construct (mid + 1) j
    let val ← SignedEvaluation.add (← node leftt).val (← node right).val
    setNode newNode { (← node newNode) with val := val, left := some leftt, right := some right }
    return newNode
  else throw .undefined
termination_by j - i
decreasing_by all_goals (simp only [Segment.midpoint] at *; omega)

/-- The overload on a node. -/
def update (i j l r : ℕ) (value : ValueType) (curr : ℕ) : PointerM ℕ := do
  lazy i j curr
  if l ≤ i ∧ j ≤ r then do
    let newNode ← newKid curr
    addProp newNode value
    lazy i j newNode
    return newNode
  else if r < i ∨ j < l then return curr
  else if i < j then do
    let newNode ← makeNode
    let mid := Segment.midpoint i j
    assignLeft newNode (← update i mid l r value (← pointee (← node curr).left))
    assignRight newNode (← update (mid + 1) j l r value (← pointee (← node curr).right))
    let left ← node (← pointee (← node newNode).left)
    let right ← node (← pointee (← node newNode).right)
    let val ← SignedEvaluation.add left.val right.val
    setNode newNode { (← node newNode) with val := val }
    return newNode
  else throw .undefined
termination_by j - i
decreasing_by all_goals (simp only [Segment.midpoint] at *; omega)

/-- The overload on a node. Which operand of the sum is evaluated first is up to the compiler. -/
def query (leftFirst : Bool) (i j l r curr : ℕ) : PointerM ValueType := do
  lazy i j curr
  if j < l ∨ r < i then return 0
  else if l ≤ i ∧ j ≤ r then return (← node curr).val
  else if i < j then do
    let mid := Segment.midpoint i j
    let (left, right) ← Effect.inOrder leftFirst
      (do query leftFirst i mid l r (← pointee (← node curr).left))
      (do query leftFirst (mid + 1) j l r (← pointee (← node curr).right))
    SignedEvaluation.add left right
  else throw .undefined
termination_by j - i
decreasing_by all_goals (simp only [Segment.midpoint] at *; omega)

/-! ## The public functions -/

/-- `n - 1`. -/
def last (this : State) : ℕ := (this.n + 2 ^ 32 - 1) % 2 ^ 32

/-- `construct(vec)`. -/
def constructFrom (vec : List ValueType) : PointerM Unit :=
  if vec = [] then return
  else do
    modify fun this => { this with n := vec.length % 2 ^ 32, vec := vec }
    let root ← construct 0 (last (← get))
    modify fun this => { this with ptrs := this.ptrs ++ [root] }

/-- `update(l, r, value)`. -/
def updateLatest (l r : ℕ) (value : ValueType) : PointerM Unit := do
  let this ← get
  let root ← update 0 (last this) l r value (← vectorAt this.ptrs (this.ptrs.length - 1))
  modify fun this => { this with ptrs := this.ptrs ++ [root] }

/-- `query(l, r, version)`. -/
def queryVersion (leftFirst : Bool) (l r version : ℕ) : PointerM ValueType := do
  let this ← get
  query leftFirst 0 (last this) l r (← vectorAt this.ptrs version)

def size (this : State) : ℕ := this.ptrs.length % 2 ^ 32

def nodesCreated (this : State) : ℕ := this.created

example : Effect.outcome ((do
    constructFrom [1, 2, 3, 4, 5]
    updateLatest 1 3 10
    updateLatest 0 4 (-2)
    let a ← queryVersion true 2 3 1
    let b ← queryVersion false 2 3 2
    let c ← queryVersion true 0 4 0
    return ([a, b, c], nodesCreated (← get))) {}) = .ok ([27, 23, 15], 25) := by
  decide +kernel

/-! ## One step at a time -/

section Steps

variable {s : State} {curr a p : ℕ} {x : Node} {b c : ValueType}

theorem node_run (h : s.nodes[curr]? = some x) : node curr s = .ok x s := by
  unfold node
  rw [Effect.run_bind_ok (Effect.run_get s), vectorAt_eq_ok.mpr h]
  rfl

theorem setNode_run (curr : ℕ) (x : Node) (s : State) :
    setNode curr x s = .ok () { s with nodes := s.nodes.set curr x } := rfl

theorem makeNode_run (s : State) : makeNode s =
    .ok s.nodes.length { s with nodes := s.nodes ++ [{}], created := s.created + 1 } := rfl

/-- Something other than the node owns the pointee. -/
def OwnedApart (s : State) (curr a : ℕ) : Prop :=
  a ∈ s.ptrs ∨ ∃ b x, b ≠ curr ∧ s.nodes[b]? = some x ∧ (x.left = some a ∨ x.right = some a)

/-- What something else owns is not freed when a pointer of the node goes. -/
theorem OwnedApart.release (h : OwnedApart s curr a) (x : Node) :
    release (some a) { s with nodes := s.nodes.set curr x } =
      .ok () { s with nodes := s.nodes.set curr x } := by
  have howned : Owned { s with nodes := s.nodes.set curr x } a := by
    rcases h with h | ⟨b, y, hne, hy, hp⟩
    · exact .inl h
    · refine .inr ⟨y, ?_, hp⟩
      have : (s.nodes.set curr x)[b]? = some y := by rwa [List.getElem?_set_ne hne.symm]
      exact List.mem_of_getElem? this
  exact congrArg (EStateM.Result.ok ()) (if_pos howned)

theorem assignLeft_run (hx : s.nodes[curr]? = some x)
    (h : ∀ a, x.left = some a → OwnedApart s curr a) (p : ℕ) : assignLeft curr p s =
      .ok () { s with nodes := s.nodes.set curr { x with left := some p } } := by
  unfold assignLeft
  rw [Effect.run_bind_ok (node_run hx), Effect.run_bind_ok (setNode_run _ _ _)]
  rcases hl : x.left with _ | a
  · rfl
  · exact (h a hl).release _

theorem assignRight_run (hx : s.nodes[curr]? = some x)
    (h : ∀ a, x.right = some a → OwnedApart s curr a) (p : ℕ) : assignRight curr p s =
      .ok () { s with nodes := s.nodes.set curr { x with right := some p } } := by
  unfold assignRight
  rw [Effect.run_bind_ok (node_run hx), Effect.run_bind_ok (setNode_run _ _ _)]
  rcases hr : x.right with _ | a
  · rfl
  · exact (h a hr).release _

/-- A copy. -/
theorem newKid_run (hx : s.nodes[curr]? = some x) : newKid curr s =
    .ok s.nodes.length { s with nodes := s.nodes ++ [x], created := s.created + 1 } := by
  have hx' : (s.nodes ++ [({} : Node)])[curr]? = some x := getElem?_more _ hx
  unfold newKid
  rw [Effect.run_bind_ok (makeNode_run s), Effect.run_bind_ok (node_run hx'),
    Effect.run_bind_ok (setNode_run _ _ _), Effect.run_pure]
  simp only [List.set_append_right _ _ le_rfl, Nat.sub_self, List.set_cons_zero]

end Steps

/-! ## Arithmetic -/

section Arithmetic

variable {F : Prop} {s : State} {a b : ValueType} {β : Type} {R : β → State → Prop}

/-- A signed operator: the exact result, or none. -/
theorem signed_bind {exact : ℤ} {f : ValueType → PointerM β} (hF : ¬ F → Representable exact)
    (hf : ∀ c, c.toInt = exact → Effect.Ensures F (f c) s R) :
    Effect.Ensures F (liftM (SignedEvaluation.signed exact) >>= f) s R := by
  by_cases hr : Representable exact
  · obtain ⟨c, hc⟩ := hr.exists_toInt
    exact .lift_ok (SignedEvaluation.signed_of_toInt hc) (hf c hc)
  · refine .lift (fun _ => ?_) fun c hc => ?_
    · exact not_not.mp fun h => hr (hF h)
    · unfold SignedEvaluation.signed at hc
      rw [if_neg hr] at hc
      cases hc

theorem add_bind {f : ValueType → PointerM β} (hF : ¬ F → Representable (a.toInt + b.toInt))
    (hf : ∀ c, c.toInt = a.toInt + b.toInt → Effect.Ensures F (f c) s R) :
    Effect.Ensures F (liftM (SignedEvaluation.add a b) >>= f) s R := signed_bind hF hf

/-- The addition of a pending value to a whole segment. -/
theorem spread_bind {i j : ℕ} {f : ValueType → PointerM β} (hij : i ≤ j) (hj : j < 2 ^ 32 - 1)
    (hF : ¬ F → Representable (a.toInt * Segment.length i j))
    (hf : ∀ c, c.toInt = a.toInt * Segment.length i j → Effect.Ensures F (f c) s R) :
    Effect.Ensures F (liftM (spread i j a) >>= f) s R := by
  have hlen : (Int64.ofNat ((j - i + 1) % 2 ^ 32)).toInt = (Segment.length i j : ℤ) := by
    have hlt : (j - i + 1) % 2 ^ 32 = j - i + 1 := Nat.mod_eq_of_lt (by omega)
    rw [hlt, Segment.length, Int64.toInt_ofNat_of_lt (by omega)]
  unfold spread SignedEvaluation.mul
  rw [hlen, mul_comm]
  exact signed_bind hF hf

end Arithmetic

/-! ## One push -/

section Push

open Effect (Ensures)

variable {F : Prop} {s : State} {i j curr l r : ℕ} {x y z : Node}

/-- The node was overwritten, and more nodes were made. -/
def amended (s : State) (curr : ℕ) (x : Node) (more : List Node) : State :=
  { s with nodes := s.nodes.set curr x ++ more, created := s.created + more.length }

theorem amended_curr (hcurr : curr < s.nodes.length) (x : Node) (more : List Node) :
    (amended s curr x more).nodes[curr]? = some x := by
  refine getElem?_more more ?_
  rw [List.getElem?_set_self hcurr]

theorem amended_other {a : ℕ} (hne : curr ≠ a) (ha : s.nodes[a]? = some y) (x : Node)
    (more : List Node) : (amended s curr x more).nodes[a]? = some y := by
  refine getElem?_more more ?_
  rwa [List.getElem?_set_ne hne]

theorem amended_set (hcurr : curr < s.nodes.length) (x y : Node) (more : List Node) :
    { amended s curr x more with nodes := (amended s curr x more).nodes.set curr y } =
      amended s curr y more := by
  have hlt : curr < (s.nodes.set curr x).length := by rwa [List.length_set]
  simp only [amended, List.set_append_left _ _ hlt, List.set_set]

theorem amended_push (x y : Node) (more : List Node) :
    ({ amended s curr x more with
      nodes := (amended s curr x more).nodes ++ [y]
      created := (amended s curr x more).created + 1 } : State) =
      amended s curr x (more ++ [y]) := by
  simp only [amended, List.append_assoc, List.length_append, List.length_singleton, Nat.add_assoc]

theorem amended_length (x : Node) (more : List Node) :
    (amended s curr x more).nodes.length = s.nodes.length + more.length := by
  simp only [amended, List.length_append, List.length_set]

theorem amended_more {k : ℕ} (x : Node) (more : List Node) :
    (amended s curr x more).nodes[s.nodes.length + k]? = more[k]? := by
  simp only [amended]
  rw [List.getElem?_append_right (by rw [List.length_set]; omega), List.length_set,
    Nat.add_sub_cancel_left]

theorem amended_set_more {k : ℕ} (x y : Node) (more : List Node) :
    { amended s curr x more with
      nodes := (amended s curr x more).nodes.set (s.nodes.length + k) y } =
      amended s curr x (more.set k y) := by
  simp only [amended, List.length_set]
  rw [List.set_append_right _ _ (by rw [List.length_set]; omega), List.length_set,
    Nat.add_sub_cancel_left]

/-- What else owns a node goes on owning it. -/
theorem OwnedApart.amended {a : ℕ} (h : OwnedApart s curr a) (x : Node) (more : List Node) :
    OwnedApart (PerSegTree.amended s curr x more) curr a := by
  rcases h with h | ⟨b, y, hne, hy, hp⟩
  · exact .inl h
  · exact .inr ⟨b, y, hne, amended_other hne.symm hy x more, hp⟩

/-- Nothing is pending: nothing is done. -/
theorem lazy_settled (hx : s.nodes[curr]? = some x) (hp : x.prop = 0) :
    lazy i j curr s = .ok () s := by
  unfold lazy
  rw [Effect.run_bind_ok (node_run hx), if_pos hp]
  rfl

/-- A node with a pending addition and its children. -/
structure Pending (s : State) (curr l r : ℕ) (x y z : Node) : Prop where
  node : s.nodes[curr]? = some x
  prop : x.prop ≠ 0
  left : x.left = some l
  right : x.right = some r
  leftNode : s.nodes[l]? = some y
  rightNode : s.nodes[r]? = some z
  left_ne : curr ≠ l
  right_ne : curr ≠ r
  leftOwned : OwnedApart s curr l
  rightOwned : OwnedApart s curr r

/-- What a push makes of the node and its children. -/
structure Pushed (s : State) (i j curr : ℕ) (x y z : Node) (s' : State) (val p q : ValueType) :
    Prop where
  state : s' = amended s curr
    ⟨some s.nodes.length, some (s.nodes.length + 1), val, 0⟩
    [{ y with prop := p }, { z with prop := q }]
  val : val.toInt = x.val.toInt + x.prop.toInt * Segment.length i j
  left : p.toInt = y.prop.toInt + x.prop.toInt
  right : q.toInt = z.prop.toInt + x.prop.toInt

theorem setNode_amended (hcurr : curr < s.nodes.length) (x y : Node) (more : List Node) :
    setNode curr y (amended s curr x more) = .ok () (amended s curr y more) := by
  rw [setNode_run, amended_set hcurr]

/-- The pointer to a child is replaced by one to a copy. -/
theorem newKid_amended {a : ℕ} (ha : s.nodes[a]? = some y) (hne : curr ≠ a) (x : Node)
    (more : List Node) : newKid a (amended s curr x more) =
      .ok (s.nodes.length + more.length) (amended s curr x (more ++ [y])) := by
  rw [newKid_run (amended_other hne ha x more), amended_push, amended_length]

theorem addProp_amended {k : ℕ} {more : List Node} {value : ValueType} (hk : more[k]? = some y)
    (hF : ¬ F → Representable (y.prop.toInt + value.toInt)) (x : Node) :
    Ensures F (addProp (s.nodes.length + k) value) (amended s curr x more) fun _ t =>
      ∃ p : ValueType, p.toInt = y.prop.toInt + value.toInt ∧
        t = amended s curr x (more.set k { y with prop := p }) := by
  have hread : (amended s curr x more).nodes[s.nodes.length + k]? = some y :=
    (amended_more x more).trans hk
  unfold addProp
  refine .bind_ok (node_run hread) (add_bind hF fun p hp => ?_)
  refine .of_ok (setNode_run _ _ _) ⟨p, hp, ?_⟩
  rw [amended_set_more]

/-- **A push.** Both children are copied, and the addition goes to the copies. -/
theorem lazy_pending (h : Pending s curr l r x y z) (hij : i < j) (hj : j < 2 ^ 32 - 1)
    (hmul : ¬ F → Representable (x.prop.toInt * Segment.length i j))
    (hval : ¬ F → Representable (x.val.toInt + x.prop.toInt * Segment.length i j))
    (hleft : ¬ F → Representable (y.prop.toInt + x.prop.toInt))
    (hright : ¬ F → Representable (z.prop.toInt + x.prop.toInt)) :
    Ensures F (lazy i j curr) s fun _ s' => ∃ val p q, Pushed s i j curr x y z s' val p q := by
  have hcurr : curr < s.nodes.length := (List.getElem?_eq_some_iff.mp h.node).1
  unfold lazy
  refine .bind_ok (node_run h.node) ?_
  rw [if_neg h.prop]
  refine spread_bind hij.le hj hmul fun c hc => add_bind (by rwa [hc]) fun val hsum => ?_
  rw [hc] at hsum
  have hset : setNode curr { x with val := val } s =
      .ok () (amended s curr { x with val := val } []) := by
    rw [setNode_run, amended, List.append_nil]
    rfl
  refine .bind_ok hset (.bind (P := fun _ t => ∃ p q : ValueType, t = amended s curr
    ⟨some s.nodes.length, some (s.nodes.length + 1), val, x.prop⟩
    [{ y with prop := p }, { z with prop := q }] ∧ p.toInt = y.prop.toInt + x.prop.toInt ∧
      q.toInt = z.prop.toInt + x.prop.toInt) ?_ ?_)
  · rw [if_pos hij.ne]
    -- the copies of the children
    refine .bind_ok (node_run (amended_curr hcurr _ _)) (.lift_ok (a := l) (by rw [h.left]; rfl) ?_)
    refine .bind_ok (newKid_amended h.leftNode h.left_ne _ _) ?_
    refine .bind_ok (assignLeft_run (amended_curr hcurr _ _) (fun a ha => ?_) _) ?_
    · cases ha.symm.trans h.left
      exact h.leftOwned.amended _ _
    rw [amended_set hcurr]
    refine .bind_ok (node_run (amended_curr hcurr _ _)) (.lift_ok (a := r) (by rw [h.right]; rfl) ?_)
    refine .bind_ok (newKid_amended h.rightNode h.right_ne _ _) ?_
    refine .bind_ok (assignRight_run (amended_curr hcurr _ _) (fun a ha => ?_) _) ?_
    · cases ha.symm.trans h.right
      exact h.rightOwned.amended _ _
    rw [amended_set hcurr]
    -- the addition to the copies
    refine .bind_ok (node_run (amended_curr hcurr _ _)) (.lift_ok (a := s.nodes.length) rfl ?_)
    refine .bind_ok (node_run (amended_curr hcurr _ _)) ?_
    refine .bind (addProp_amended (k := 0) (y := y) rfl hleft _) fun _ t ht => ?_
    obtain ⟨p, hp, rfl⟩ := ht
    refine .bind_ok (node_run (amended_curr hcurr _ _)) (.lift_ok (a := s.nodes.length + 1) rfl ?_)
    refine .bind_ok (node_run (amended_curr hcurr _ _)) ?_
    refine .mono (addProp_amended (k := 1) (y := z) rfl hright _) fun _ t ht => ?_
    obtain ⟨q, hq, rfl⟩ := ht
    exact ⟨p, q, rfl, hp, hq⟩
  · rintro _ t ⟨p, q, rfl, hp, hq⟩
    refine .bind_ok (node_run (amended_curr hcurr _ _)) ?_
    exact .of_ok (setNode_amended hcurr _ _ _) ⟨val, p, q, rfl, hsum, hp, hq⟩

/-- A push at a single index. -/
theorem lazy_leaf (hx : s.nodes[curr]? = some x) (hp : x.prop ≠ 0) (hi : i < 2 ^ 32 - 1)
    (hmul : ¬ F → Representable x.prop.toInt)
    (hval : ¬ F → Representable (x.val.toInt + x.prop.toInt)) :
    Ensures F (lazy i i curr) s fun _ s' => ∃ val : ValueType,
      val.toInt = x.val.toInt + x.prop.toInt ∧
        s' = { s with nodes := s.nodes.set curr { x with val := val, prop := 0 } } := by
  have hcurr : curr < s.nodes.length := (List.getElem?_eq_some_iff.mp hx).1
  have hone : x.prop.toInt * (Segment.length i i : ℤ) = x.prop.toInt := by
    simp [Segment.length]
  unfold lazy
  refine .bind_ok (node_run hx) ?_
  rw [if_neg hp]
  refine spread_bind le_rfl hi (by rwa [hone]) fun c hc => add_bind (by rwa [hc, hone]) fun val hv => ?_
  rw [hc, hone] at hv
  refine .bind_ok (setNode_run _ _ _) ?_
  rw [if_neg (not_not.mpr rfl)]
  refine .bind_ok (Effect.run_pure _ _) (.bind_ok (node_run (List.getElem?_set_self hcurr)) ?_)
  refine .of_ok (setNode_run _ _ _) ⟨val, hv, ?_⟩
  simp only [List.set_set]

end Push

end PerSegTree

end Valseg
