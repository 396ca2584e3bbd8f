import CSubset.Tree.Arena

/-!
# Trees without gaps

A tree may lack children, and lowering rejects most of the gaps like any other mistake. Three kinds
of gap it cannot report, since there is no node to blame: a missing member of a list, a parameter
without its name, and a declaration of nothing. A tree is whole if it has none of these
(`Node.Whole`). That, like the names that a tree gives to its variables (`Node.Naming`), is a matter
of each node on its own (`Node.Throughout`).
-/

namespace CSubset.Node

variable {P Q : Node → Prop} {stamp : Stamp} {n : Node} {c c' : Option Node}
  {cs : List (Option Node)}

/-! ## Properties of all nodes -/

/-- Every node of the tree satisfies `Q`. -/
inductive Throughout (Q : Node → Prop) : Node → Prop
  | leaf {stamp : Stamp} {form : Leaf} (hhere : Q (.leaf stamp form)) :
    Throughout Q (.leaf stamp form)
  | seq {stamp : Stamp} {form : SeqForm} {items : List (Option Node)}
    (hhere : Q (.seq stamp form items)) (hitems : ∀ n, some n ∈ items → Throughout Q n) :
    Throughout Q (.seq stamp form items)
  | unary {stamp : Stamp} {form : UnaryForm} {child : Option Node}
    (hhere : Q (.unary stamp form child)) (hchild : ∀ n, child = some n → Throughout Q n) :
    Throughout Q (.unary stamp form child)
  | binary {stamp : Stamp} {form : BinaryForm} {left right : Option Node}
    (hhere : Q (.binary stamp form left right)) (hleft : ∀ n, left = some n → Throughout Q n)
    (hright : ∀ n, right = some n → Throughout Q n) : Throughout Q (.binary stamp form left right)
  | ternary {stamp : Stamp} {form : TernaryForm} {first second third : Option Node}
    (hhere : Q (.ternary stamp form first second third))
    (hfirst : ∀ n, first = some n → Throughout Q n)
    (hsecond : ∀ n, second = some n → Throughout Q n)
    (hthird : ∀ n, third = some n → Throughout Q n) :
    Throughout Q (.ternary stamp form first second third)

namespace Throughout

theorem here (h : Throughout Q n) : Q n := by
  cases h <;> assumption

theorem items {form : SeqForm} (h : Throughout Q (.seq stamp form cs)) :
    ∀ n, some n ∈ cs → Throughout Q n := by
  cases h with
  | seq _ hitems => exact hitems

theorem child {form : UnaryForm} (h : Throughout Q (.unary stamp form c)) (hn : c = some n) :
    Throughout Q n := by
  cases h with
  | unary _ hchild => exact hchild n hn

theorem left {form : BinaryForm} (h : Throughout Q (.binary stamp form c c'))
    (hn : c = some n) : Throughout Q n := by
  cases h with
  | binary _ hleft _ => exact hleft n hn

theorem right {form : BinaryForm} (h : Throughout Q (.binary stamp form c c'))
    (hn : c' = some n) : Throughout Q n := by
  cases h with
  | binary _ _ hright => exact hright n hn

theorem children {form : TernaryForm} {first second third : Option Node}
    (h : Throughout Q (.ternary stamp form first second third)) :
    (∀ n, first = some n → Throughout Q n) ∧ (∀ n, second = some n → Throughout Q n) ∧
      ∀ n, third = some n → Throughout Q n := by
  cases h with
  | ternary _ hfirst hsecond hthird => exact ⟨hfirst, hsecond, hthird⟩

theorem mono (h : Throughout P n) (hPQ : ∀ n, P n → Q n) : Throughout Q n := by
  induction h with
  | leaf hhere => exact .leaf (hPQ _ hhere)
  | seq hhere _ ih => exact .seq (hPQ _ hhere) ih
  | unary hhere _ ih => exact .unary (hPQ _ hhere) ih
  | binary hhere _ _ ihl ihr => exact .binary (hPQ _ hhere) ihl ihr
  | ternary hhere _ _ _ ih₁ ih₂ ih₃ => exact .ternary (hPQ _ hhere) ih₁ ih₂ ih₃

end Throughout

/-- No child is missing here that lowering cannot do without. -/
def Complete : Node → Prop
  | .seq _ _ items => none ∉ items
  | .binary _ .declaration _ right =>
    ∃ stamp names stars, right = some (.leaf stamp (.names names stars))
  | .binary _ .forward _ right => right ≠ none
  | _ => True

abbrev Whole : Node → Prop := Throughout Complete

/-- If this declares a variable or a parameter, its name satisfies `P`. -/
def GivesName (P : String → Prop) : Node → Prop
  | .binary _ .declaration _ (some (.leaf _ (.names [x] _))) => P x
  | .binary _ .forward _ (some (.leaf _ (.names [x] _))) => P x
  | _ => True

/-- The names that the tree gives to variables and parameters satisfy `P`. -/
abbrev Naming (P : String → Prop) : Node → Prop := Throughout (GivesName P)

/-- All members of a list are there and satisfy `P`. -/
def AllItems (P : Node → Prop) (items : List (Option Node)) : Prop :=
  none ∉ items ∧ ∀ n, some n ∈ items → P n

theorem AllItems.of_map_some {ns : List Node} (h : ∀ n ∈ ns, P n) : AllItems P (ns.map some) := by
  refine ⟨by simp, fun n hn => ?_⟩
  obtain ⟨m, hm, heq⟩ := List.mem_map.mp hn
  exact Option.some.inj heq ▸ h m hm

theorem AllItems.head (h : AllItems P (c :: cs)) : ∃ n, c = some n ∧ P n := by
  cases c with
  | none => exact absurd List.mem_cons_self h.1
  | some n => exact ⟨n, rfl, h.2 n List.mem_cons_self⟩

theorem AllItems.tail (h : AllItems P (c :: cs)) : AllItems P cs :=
  ⟨fun hmem => h.1 (List.mem_cons_of_mem _ hmem), fun n hn => h.2 n (List.mem_cons_of_mem _ hn)⟩

theorem Whole.allItems {form : SeqForm} (h : Whole (.seq stamp form cs)) : AllItems Whole cs :=
  ⟨h.here, h.items⟩

end CSubset.Node
