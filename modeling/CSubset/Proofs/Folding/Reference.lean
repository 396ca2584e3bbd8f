import CSubset.Proofs.Execution.Basic
import CSubset.Proofs.Failure
import CSubset.Proofs.Folding.Copies
import CSubset.Proofs.Tree.Nodes

/-!
# What folding computes

A tree has a constant value if it is a literal, or arithmetic on trees that have one
(`Tree.constant?`). The folded form of a tree has a literal in the place of each largest piece of
arithmetic with a constant value (`Tree.reduce`). Arithmetic on constants without a value is a fault
(`Tree.fault?`).

The folder goes through a tree from left to right, children before their parent. It stops at the
first fault; if there is none, it makes the folded form (`matchesReference`). Both are said of a
step by `Does`, which goes through sequences of steps.
-/

namespace CSubset

/-! ## Reference -/

/-- Arithmetic where a quotient always wraps around. -/
def wrapping : Convention := ⟨none, true, false⟩

def arithValue? : Coded ArithOp → Int32 → Int32 → Option Int32
  | .known op, x, y => op.value? wrapping x y
  | .unknown _, _, _ => none

/-- What is wrong with arithmetic on two constants, of which `y` is the right one. -/
def arithFault? (op : Coded ArithOp) (y : Int32) : Option FoldCause :=
  match op with
  | .unknown code => some (.unknownOperator code)
  | .known .div => if y = 0 then some .divisionByZero else none
  | .known .mod => if y = 0 then some .moduloByZero else none
  | .known _ => none

namespace Tree

variable {σ τ : Type}

mutual

/-- The constant value of a tree. -/
def constant? : Tree σ → Option Int32
  | .leaf _ (.intConst v) => some v
  | .binary _ (.arithmetic op) left right =>
    do arithValue? op (← constantChild? left) (← constantChild? right)
  | _ => none

def constantChild? : Option (Tree σ) → Option Int32
  | none => none
  | some t => constant? t

end

/-- What is wrong with a node that is arithmetic on constants. -/
def fault? : Tree σ → Option FoldCause
  | .binary _ (.arithmetic op) left right => do
    let _ ← constantChild? left
    arithFault? op (← constantChild? right)
  | _ => none

mutual

/-- The tree with a literal for each largest piece of arithmetic that has a constant value. -/
def reduce : Tree σ → Tree σ
  | .leaf l form => .leaf l form
  | .seq l form items => .seq l form (reduceItems items)
  | .unary l form child => .unary l form (reduceChild child)
  | .binary l form left right =>
    match constant? (.binary l form left right) with
    | some v => .leaf l (.intConst v)
    | none => .binary l form (reduceChild left) (reduceChild right)
  | .ternary l form first second third =>
    .ternary l form (reduceChild first) (reduceChild second) (reduceChild third)

def reduceChild : Option (Tree σ) → Option (Tree σ)
  | none => none
  | some t => some (reduce t)

def reduceItems : List (Option (Tree σ)) → List (Option (Tree σ))
  | [] => []
  | t :: ts => reduceChild t :: reduceItems ts

end

/-- Arithmetic on two literals. -/
def Reducible (t : Tree σ) : Prop :=
  ∃ l op l₁ x l₂ y, t = .binary l (.arithmetic op) (some (.leaf l₁ (.intConst x)))
    (some (.leaf l₂ (.intConst y)))

/-- The number that a child is. -/
def literal? : Option (Tree σ) → Option Int32
  | some (.leaf _ (.intConst v)) => some v
  | _ => none

theorem constant?_of_not_arithmetic {form : BinaryForm} (hform : ∀ op, form ≠ .arithmetic op)
    (l : σ) (left right : Option (Tree σ)) :
    constant? (.binary l form left right) = none ∧ fault? (.binary l form left right) = none := by
  cases form with
  | arithmetic op => exact absurd rfl (hform op)
  | _ => exact ⟨rfl, rfl⟩

theorem literal?_mapChild (f : σ → τ) (t : Option (Tree σ)) :
    literal? (mapChild f t) = literal? t := by
  cases t with
  | none => rfl
  | some t =>
    cases t with
    | leaf l form => cases form <;> rfl
    | _ => rfl

/-- What has a constant value is a literal in the folded form, and nothing else is. -/
theorem literal?_reduceChild (t : Option (Tree σ)) :
    literal? (reduceChild t) = constantChild? t := by
  cases t with
  | none => rfl
  | some t =>
    rw [reduceChild, constantChild?]
    cases t with
    | leaf l form => cases form <;> rfl
    | binary l form left right =>
      rw [reduce]
      cases h : constant? (.binary l form left right) <;> rfl
    | _ => rfl

theorem literal?_eq_some {t : Option (Tree σ)} {v : Int32} :
    literal? t = some v ↔ ∃ l, t = some (.leaf l (.intConst v)) := by
  constructor
  · intro h
    unfold literal? at h
    split at h
    · exact ⟨_, by rw [Option.some.inj h]⟩
    · cases h
  · rintro ⟨l, rfl⟩
    rfl

end Tree

/-- The folder's arithmetic fails where there is a fault; else it has the value that it should
have. -/
theorem evalCoded_cases (op : Coded ArithOp) (x y : Int32) :
    (∃ cause, arithFault? op y = some cause ∧ evalCoded op x y = .error cause ∧
      arithValue? op x y = none) ∨
      ∃ v, arithFault? op y = none ∧ evalCoded op x y = .ok v ∧ arithValue? op x y = some v := by
  have hdivides : wrapping.divides x y = decide (y ≠ 0) := by simp [Convention.divides, wrapping]
  cases op with
  | unknown code => exact .inl ⟨_, rfl, rfl, rfl⟩
  | known op =>
    cases op with
    | add => exact .inr ⟨_, rfl, rfl, value?_add wrapping x y⟩
    | sub => exact .inr ⟨_, rfl, rfl, value?_sub wrapping x y⟩
    | mul => exact .inr ⟨_, rfl, rfl, value?_mul wrapping x y⟩
    | div =>
      rw [arithValue?, value?_div, hdivides]
      by_cases hy : y = 0
      · exact .inl
          ⟨.divisionByZero, by simp [arithFault?, hy], by simp [evalCoded, ArithOp.eval, hy],
            by simp [hy]⟩
      · exact .inr
          ⟨x / y, by simp [arithFault?, hy], by simp [evalCoded, ArithOp.eval, hy], by simp [hy]⟩
    | mod =>
      rw [arithValue?, value?_mod, hdivides]
      by_cases hy : y = 0
      · exact .inl
          ⟨.moduloByZero, by simp [arithFault?, hy], by simp [evalCoded, ArithOp.eval, hy],
            by simp [hy]⟩
      · exact .inr
          ⟨x % y, by simp [arithFault?, hy], by simp [evalCoded, ArithOp.eval, hy], by simp [hy]⟩

/-- The least number has no opposite; its quotient by minus one wraps around. -/
example : evalCoded (.known .div) Int32.minValue (-1) = .ok Int32.minValue := by decide +kernel

/-! ## Steps of the folder

A step has the fault of its parts that comes first, or the result. -/

/-- Whatever the arena, the step stops with the fault if there is one; else it gives a result that
satisfies `P`. -/
def Does {α : Type} (x : FoldM α) (fault : Option FoldError) (P : α → Prop) : Prop :=
  ∀ a, match fault with
    | some e => ∃ a', Stops x a e a'
    | none => ∃ r a', Gives x a r a' ∧ P r

section Does

variable {α β : Type} {P : α → Prop} {Q : β → Prop} {fault fault' : Option FoldError}

theorem Does.pure {r : α} (h : P r) : Does (pure r) none P :=
  fun a => ⟨r, a, gives_pure.mpr ⟨rfl, rfl⟩, h⟩

/-- The fault of the first step comes before that of the second. -/
theorem Does.bind {x : FoldM α} {k : α → FoldM β} (hx : Does x fault P)
    (hk : ∀ r, P r → Does (k r) fault' Q) : Does (x >>= k) (fault.or fault') Q := by
  intro a
  cases fault with
  | some e =>
    obtain ⟨a', h⟩ := hx a
    exact ⟨a', stops_bind.mpr (.inl h)⟩
  | none =>
    obtain ⟨r, b, hr, hP⟩ := hx a
    have hnext := hk r hP b
    cases fault' with
    | some e =>
      obtain ⟨a', h⟩ := hnext
      exact ⟨a', stops_bind.mpr (.inr ⟨r, b, hr, h⟩)⟩
    | none =>
      obtain ⟨r', a', h, hQ⟩ := hnext
      exact ⟨r', a', gives_bind.mpr ⟨r, b, hr, h⟩, hQ⟩

theorem Does.imp {x : FoldM α} {P' : α → Prop} (hx : Does x fault P) (h : ∀ r, P r → P' r) :
    Does x fault P' := by
  intro a
  cases fault with
  | some e => exact hx a
  | none =>
    obtain ⟨r, a', hr, hP⟩ := hx a
    exact ⟨r, a', hr, h r hP⟩

theorem does_allocAt {P : Node → Prop} {pos : Pos} {make : Stamp → Node}
    (h : ∀ stamp : Stamp, stamp.pos = pos → P (make stamp)) :
    Does (liftM (Arena.allocAt pos make) : FoldM Node) none P :=
  fun a => ⟨_, _, Node.gives_lift.mpr rfl, h { a with mark := pos : Arena }.nextStamp rfl⟩

end Does

namespace Node

open CSubset.Tree

variable {n : Node} {left right : Option Node}

/-- The error that names the node, if it is at fault. -/
def error? (n : Node) : Option FoldError := n.fault?.map (⟨·, n.label⟩)

/-- The error of the first node at fault. -/
def faultIn (ns : List Node) : Option FoldError := ns.findSome? error?

theorem faultIn_append (ns ms : List Node) : faultIn (ns ++ ms) = (faultIn ns).or (faultIn ms) :=
  List.findSome?_append

theorem faultIn_singleton (n : Node) : faultIn [n] = n.error? := by
  simp [faultIn]

theorem foldArithmetic_of_not_literal {op : Coded ArithOp} (stamp : Stamp)
    (h : literal? left = none ∨ literal? right = none) :
    foldArithmetic stamp op left right = liftM
      (Arena.allocAt stamp.pos (.binary · (.arithmetic op) left right)) := by
  unfold foldArithmetic
  funext a
  split
  · rcases h with h | h <;> cases h
  · rfl

/-- The operands are folded forms. -/
theorem does_foldArithmetic (stamp : Stamp) (op : Coded ArithOp) {left' right' : Option Node}
    (hleft : literal? left' = constantChild? left)
    (hright : literal? right' = constantChild? right) :
    Does (foldArithmetic stamp op left' right')
      (error? (.binary stamp (.arithmetic op) left right)) fun m =>
      ∃ stamp', stamp'.pos = stamp.pos ∧
        m = match constant? (.binary stamp (.arithmetic op) left right) with
        | some v => .leaf stamp' (.intConst v)
        | none => .binary stamp' (.arithmetic op) left' right' := by
  rw [error?, fault?, constant?, ← hleft, ← hright]
  cases hx : literal? left' with
  | none =>
    rw [foldArithmetic_of_not_literal stamp (.inl hx)]
    exact does_allocAt fun stamp' hpos => ⟨stamp', hpos, rfl⟩
  | some x =>
    cases hy : literal? right' with
    | none =>
      rw [foldArithmetic_of_not_literal stamp (.inr hy)]
      exact does_allocAt fun stamp' hpos => ⟨stamp', hpos, rfl⟩
    | some y =>
      obtain ⟨l, rfl⟩ := literal?_eq_some.mp hx
      obtain ⟨l', rfl⟩ := literal?_eq_some.mp hy
      obtain ⟨cause, hfault, heval, -⟩ | ⟨v, hfault, heval, hvalue⟩ := evalCoded_cases op x y
      · simp only [foldArithmetic, heval, bind, Option.bind, hfault]
        exact fun a => ⟨_, rfl⟩
      · simp only [foldArithmetic, heval, bind, Option.bind, hfault, hvalue]
        show Does (liftM (Arena.allocAt stamp.pos (.leaf · (.intConst v))) : FoldM Node) none _
        exact does_allocAt fun stamp' hpos => ⟨stamp', hpos, rfl⟩

/-- What folding does to a tree. -/
abbrev MatchesReference (n : Node) : Prop :=
  Does n.fold (faultIn n.postorder) fun m => m.map Stamp.pos = n.reduce.map Stamp.pos

theorem does_foldChild {child : Option Node} (htree : ∀ n, child = some n → MatchesReference n) :
    Does (foldChild child) (faultIn (postorderChild child)) fun c =>
      mapChild Stamp.pos c = mapChild Stamp.pos (reduceChild child) := by
  cases child with
  | none => exact .pure rfl
  | some n =>
    rw [← Option.or_none (o := faultIn _)]
    exact (htree n rfl).bind fun m hm => .pure (congrArg some hm)

theorem does_foldItems {items : List (Option Node)}
    (htree : ∀ n, some n ∈ items → MatchesReference n) :
    Does (foldItems items) (faultIn (postorderItems items)) fun cs =>
      mapItems Stamp.pos cs = mapItems Stamp.pos (reduceItems items) := by
  induction items with
  | nil => exact .pure rfl
  | cons item items ih =>
    have hfirst : Does (foldChild item) (faultIn (postorderChild item)) _ :=
      does_foldChild fun n hn => htree n (hn ▸ List.mem_cons_self)
    have hrest := ih fun n hn => htree n (List.mem_cons_of_mem _ hn)
    rw [postorderItems, faultIn_append, ← Option.or_none (o := faultIn (postorderItems items))]
    exact hfirst.bind fun c hc => hrest.bind fun cs hcs => .pure
      (by rw [mapItems, reduceItems, mapItems, hc, hcs])

theorem matchesReference (n : Node) : MatchesReference n := by
  induction n using Tree.ind with
  | leaf stamp form =>
    exact does_allocAt fun stamp' hpos => by rw [Tree.map, reduce, Tree.map, hpos]
  | seq stamp form items ih =>
    rw [MatchesReference, fold, postorder, faultIn_append, faultIn_singleton]
    refine (does_foldItems ih).bind fun cs hcs => does_allocAt fun stamp' hpos => ?_
    rw [Tree.map, reduce, Tree.map, hcs, hpos]
  | unary stamp form child ih _ =>
    rw [MatchesReference, fold, postorder, faultIn_append, faultIn_singleton]
    refine (does_foldChild ih).bind fun c hc => does_allocAt fun stamp' hpos => ?_
    rw [Tree.map, reduce, Tree.map, hc, hpos]
  | binary stamp form left right ihl ihr =>
    rw [MatchesReference, fold, postorder, faultIn_append, faultIn_append, faultIn_singleton,
      Option.or_assoc]
    refine (does_foldChild ihl).bind fun l hl => (does_foldChild ihr).bind fun r hr => ?_
    split
    · next op =>
      -- a folded operand is a literal exactly where the operand has a constant value
      have hleft : literal? l = constantChild? left := by
        rw [← literal?_mapChild Stamp.pos, hl, literal?_mapChild, literal?_reduceChild]
      have hright : literal? r = constantChild? right := by
        rw [← literal?_mapChild Stamp.pos, hr, literal?_mapChild, literal?_reduceChild]
      refine (does_foldArithmetic stamp op hleft hright).imp ?_
      rintro m ⟨stamp', hpos, rfl⟩
      rw [reduce]
      cases constant? (.binary stamp (.arithmetic op) left right) with
      | some v => rw [Tree.map, Tree.map, hpos]
      | none => rw [Tree.map, Tree.map, hl, hr, hpos]
    · next hform =>
      obtain ⟨hconstant, hfault⟩ := constant?_of_not_arithmetic hform stamp left right
      rw [error?, hfault, reduce, hconstant]
      exact does_allocAt fun stamp' hpos => by rw [Tree.map, Tree.map, hl, hr, hpos]
  | ternary stamp form first second third ih₁ ih₂ ih₃ =>
    rw [MatchesReference, fold, postorder, faultIn_append, faultIn_append, faultIn_append,
      faultIn_singleton, Option.or_assoc, Option.or_assoc]
    refine (does_foldChild ih₁).bind fun f hf => (does_foldChild ih₂).bind fun s hs => ?_
    refine (does_foldChild ih₃).bind fun t ht => does_allocAt fun stamp' hpos => ?_
    rw [Tree.map, reduce, Tree.map, hf, hs, ht, hpos]

/-! ## Nothing is left to fold -/

/-- No node of the tree is arithmetic on literals. -/
def Irreducible (n : Node) : Prop := ∀ u ∈ n.postorder, ¬u.Reducible

theorem irreducible_of_children (hself : ¬n.Reducible)
    (hchildren : ∀ c, some c ∈ n.children → Irreducible c) : n.Irreducible := by
  intro u hu
  rcases mem_postorder_iff.mp hu with rfl | ⟨c, hc, hu⟩
  · exact hself
  · exact hchildren c hc u hu

theorem Both.irreducible {n m : Option Node} (h : Both (fun _ => Irreducible) n m) {c : Node}
    (hc : some c = m) : c.Irreducible := by
  cases h with
  | none => cases hc
  | some h => exact Option.some.inj hc ▸ h.2

theorem not_reducible (h : ∀ l op left right, n ≠ .binary l (.arithmetic op) left right) :
    ¬n.Reducible :=
  fun ⟨l, op, _, _, _, _, heq⟩ => h l op _ _ heq

theorem Folded.irreducible {m : Node} (h : Folded n m) : m.Irreducible := by
  refine Folded.ind ?leaf ?seq ?unary ?binary ?constant ?ternary h
  case leaf => exact fun _ => irreducible_of_children (not_reducible nofun) nofun
  case seq =>
    intro _ _ _ items items' _ hitems
    refine irreducible_of_children (not_reducible nofun) fun c hc => ?_
    obtain ⟨item, -, hitem⟩ := exists_mem_of_forall₂ hitems hc
    exact hitem.irreducible rfl
  case unary =>
    intro _ _ _ _ _ _ hchild _
    exact irreducible_of_children (not_reducible nofun) fun c hc => hchild.irreducible
      (List.mem_singleton.mp hc)
  case binary =>
    intro _ _ form _ _ _ _ _ hleft hright hform
    refine irreducible_of_children ?_ fun c hc => ?_
    · rintro ⟨_, op, _, x, _, y, heq⟩
      cases heq
      cases hform
    · rcases List.mem_cons.mp hc with hc | hc
      · exact hleft.irreducible hc
      · exact hright.irreducible (List.mem_singleton.mp hc)
  case constant => exact fun _ _ _ _ => irreducible_of_children (not_reducible nofun) nofun
  case ternary =>
    intro _ _ _ _ _ _ _ _ _ _ hfirst hsecond hthird
    refine irreducible_of_children (not_reducible nofun) fun c hc => ?_
    rcases List.mem_cons.mp hc with hc | hc
    · exact hfirst.irreducible hc
    rcases List.mem_cons.mp hc with hc | hc
    · exact hsecond.irreducible hc
    · exact hthird.irreducible (List.mem_singleton.mp hc)

/-! ## Trees -/

theorem faultIn_eq_none {ns : List Node} : faultIn ns = none ↔ ∀ n ∈ ns, n.fault? = none := by
  simp [faultIn, error?]

theorem faultIn_postorder_ne_none :
    faultIn n.postorder ≠ none ↔ ∃ path m cause, n.at? path = some m ∧ m.fault? = some cause := by
  rw [ne_eq, faultIn_eq_none]
  push Not
  constructor
  · rintro ⟨m, hm, hfault⟩
    obtain ⟨path, hpath⟩ := mem_postorder_iff_at.mp hm
    obtain ⟨cause, hcause⟩ := Option.ne_none_iff_exists'.mp hfault
    exact ⟨path, m, cause, hpath, hcause⟩
  · rintro ⟨path, m, cause, hm, hcause⟩
    exact ⟨m, mem_postorder_of_at hm, by simp [hcause]⟩

/-- The folder stops at the first node, children before their parent and from left to right, that is
arithmetic on constants without a value. If there is no such node, it makes the folded form, in
which nothing is left to fold. -/
theorem fold_computes_reference (n : Node) (a : Arena) :
    ((n.fold.run.run a).1.map (Tree.map Stamp.pos) =
      match faultIn n.postorder with
      | some e => .error e
      | none => .ok (n.reduce.map Stamp.pos)) ∧
    ((∃ e, (n.fold.run.run a).1 = .error e) ↔ ∃ path m cause, n.at? path = some m ∧
      m.fault? = some cause) ∧
    ∀ m, (n.fold.run.run a).1 = .ok m → ∀ path u, m.at? path = some u → ¬u.Reducible := by
  rw [← faultIn_postorder_ne_none]
  have hfold := matchesReference n a
  cases hfault : faultIn n.postorder with
  | some e =>
    rw [hfault] at hfold
    obtain ⟨a', hstops⟩ := hfold
    have hrun : n.fold.run.run a = (.error e, a') := hstops
    rw [hrun]
    exact ⟨rfl, ⟨nofun, fun _ => ⟨e, rfl⟩⟩, nofun⟩
  | none =>
    rw [hfault] at hfold
    obtain ⟨m, a', hgives, hm⟩ := hfold
    have hrun : n.fold.run.run a = (.ok m, a') := hgives
    rw [hrun]
    refine ⟨congrArg Except.ok hm, ⟨nofun, fun h => absurd rfl h⟩, ?_⟩
    rintro _ ⟨⟩ path u hu
    exact (folded_of_gives_fold hgives).irreducible u (mem_postorder_of_at hu)

end Node

end CSubset
