import CSubset.Proofs.Related
import CSubset.Proofs.Success
import CSubset.Proofs.Tree.Induction
import CSubset.Tree.File

/-!
# Folded copies

`Node.Folded n m` says what folding makes of a tree, without the arena: `m` has the forms and the
positions of `n`, but for arithmetic whose operands have become constants; that is a constant at the
position of the operator. A successful run of the folder gives a folded copy
(`folded_of_gives_fold`, and `rel_of_fold` for a file).

Proofs about a tree and its folded copy go by induction on both at once (`Folded.ind`).
-/

namespace CSubset

variable {form : BinaryForm}

/-- What arithmetic on constants comes to; `none` for any other node. -/
def BinaryForm.constant? : BinaryForm → Option Node → Option Node → Option (Except FoldCause Int32)
  | .arithmetic op, some (.leaf _ (.intConst x)), some (.leaf _ (.intConst y)) =>
    some (evalCoded op x y)
  | _, _, _ => none

theorem BinaryForm.constant?_eq_some {left right : Option Node} {value : Except FoldCause Int32} :
    form.constant? left right = some value ↔ ∃ op l x l' y, form = .arithmetic op ∧
      left = some (.leaf l (.intConst x)) ∧ right = some (.leaf l' (.intConst y)) ∧
        evalCoded op x y = value := by
  constructor
  · intro h
    unfold BinaryForm.constant? at h
    split at h
    · exact ⟨_, _, _, _, _, rfl, rfl, rfl, Option.some.inj h⟩
    · cases h
  · rintro ⟨op, l, x, l', y, rfl, rfl, rfl, rfl⟩
    rfl

theorem BinaryForm.constant?_eq_none (left right : Option Node)
    (hform : ∀ op, form ≠ .arithmetic op) : form.constant? left right = none := by
  cases h : form.constant? left right with
  | none => rfl
  | some value =>
    obtain ⟨op, _, _, _, _, hop, -⟩ := constant?_eq_some.mp h
    exact absurd hop (hform op)

namespace Node

/-- `m` is a folded copy of the tree. -/
inductive Folded : Node → Node → Prop
  | leaf {stamp stamp' : Stamp} {form : Leaf} (hpos : stamp'.pos = stamp.pos) :
    Folded (.leaf stamp form) (.leaf stamp' form)
  | seq {stamp stamp' : Stamp} {form : SeqForm} {items items' : List (Option Node)}
    (hpos : stamp'.pos = stamp.pos)
    (hitems : List.Forall₂ (Option.Rel Folded) items items') : Folded (.seq stamp form items)
      (.seq stamp' form items')
  | unary {stamp stamp' : Stamp} {form : UnaryForm} {child child' : Option Node}
    (hpos : stamp'.pos = stamp.pos)
    (hchild : Option.Rel Folded child child') : Folded (.unary stamp form child)
      (.unary stamp' form child')
  | binary {stamp stamp' : Stamp} {form : BinaryForm} {left left' right right' : Option Node}
    (hpos : stamp'.pos = stamp.pos) (hleft : Option.Rel Folded left left')
      (hright : Option.Rel Folded right right')
    (hform : form.constant? left' right' = none) :
    Folded (.binary stamp form left right) (.binary stamp' form left' right')
  /-- Arithmetic on constants that has a value. -/
  | constant {stamp stamp' : Stamp} {form : BinaryForm}
    {left left' right right' : Option Node} {v : Int32}
    (hpos : stamp'.pos = stamp.pos) (hleft : Option.Rel Folded left left')
      (hright : Option.Rel Folded right right')
    (hform : form.constant? left' right' = some (.ok v)) :
    Folded (.binary stamp form left right) (.leaf stamp' (.intConst v))
  | ternary {stamp stamp' : Stamp} {form : TernaryForm}
    {first first' second second' third third' : Option Node}
    (hpos : stamp'.pos = stamp.pos) (hfirst : Option.Rel Folded first first')
    (hsecond : Option.Rel Folded second second') (hthird : Option.Rel Folded third third') :
    Folded (.ternary stamp form first second third) (.ternary stamp' form first' second' third')

/-- A list of children and its folded copy. -/
abbrev FoldedItems : List (Option Node) → List (Option Node) → Prop :=
  List.Forall₂ (Option.Rel Folded)

theorem Folded.pos_eq {n m : Node} (h : Folded n m) : m.pos = n.pos := by
  cases h <;> assumption

/-! ## The folder makes folded copies -/

section Fold

variable {ε α : Type} {a a' : Arena} {n m : Node}

theorem gives_lift {σ : Type} {x : StateM σ α} {s s' : σ} {v : α} :
    Gives (liftM x : ExceptT ε (StateM σ) α) s v s' ↔ @Eq (α × σ) (x s) (v, s') := by
  show @Eq (Except ε α × σ) (.ok (x s).1, (x s).2) (.ok v, s') ↔ _
  rw [Prod.ext_iff, Prod.ext_iff]
  simp

theorem gives_allocAt {pos : Pos} {make : Stamp → Node}
    (h : Gives (liftM (Arena.allocAt pos make) : FoldM Node) a m a') :
    ∃ stamp, stamp.pos = pos ∧ m = make stamp := by
  have hrun := gives_lift.mp h
  exact ⟨{ a with mark := pos : Arena }.nextStamp, rfl, (congrArg Prod.fst hrun).symm⟩

theorem gives_foldArithmetic {stamp : Stamp} {op : Coded ArithOp} {left right : Option Node}
    (h : Gives (foldArithmetic stamp op left right) a m a') :
    ∃ stamp', stamp'.pos = stamp.pos ∧
      (((BinaryForm.arithmetic op).constant? left right = none ∧
        m = .binary stamp' (.arithmetic op) left right) ∨
        ∃ v, (BinaryForm.arithmetic op).constant? left right = some (.ok v) ∧
          m = .leaf stamp' (.intConst v)) := by
  unfold foldArithmetic at h
  obtain ⟨_, marked, hmark, h⟩ := gives_bind.mp h
  have hpos : marked.nextStamp.pos = stamp.pos := by
    have := congrArg Prod.snd (gives_lift.mp hmark)
    rw [← show _ = marked from this]
    rfl
  refine ⟨marked.nextStamp, hpos, ?_⟩
  unfold BinaryForm.constant?
  split at h
  · dsimp only
    split at h
    · next v hv => exact .inr ⟨v, by rw [hv], (congrArg Prod.fst (gives_lift.mp h)).symm⟩
    · exact absurd h gives_throw
  · next hother =>
    refine .inl ⟨?_, (congrArg Prod.fst (gives_lift.mp h)).symm⟩
    split
    · exact absurd rfl (hother _ _ _ _ rfl)
    · rfl

/-- A child is folded if the tree that it is gets folded. -/
theorem rel_of_gives_foldChild {child : Option Node}
    (htree : ∀ n, child = some n → ∀ {a m a'}, Gives n.fold a m a' → Folded n m) {m : Option Node}
    (h : Gives (foldChild child) a m a') : Option.Rel Folded child m := by
  unfold foldChild at h
  cases child with
  | none =>
    obtain ⟨rfl, -⟩ := gives_pure.mp h
    exact .none
  | some n =>
    obtain ⟨n', _, hn, h⟩ := gives_bind.mp h
    obtain ⟨rfl, -⟩ := gives_pure.mp h
    exact .some (htree n rfl hn)

theorem foldedItems_of_gives {items : List (Option Node)}
    (htree : ∀ n, some n ∈ items → ∀ {a m a'}, Gives n.fold a m a' → Folded n m)
    {ms : List (Option Node)} (h : Gives (foldItems items) a ms a') : FoldedItems items ms := by
  induction items generalizing a ms a' with
  | nil =>
    unfold foldItems at h
    obtain ⟨rfl, -⟩ := gives_pure.mp h
    exact .nil
  | cons item items ih =>
    unfold foldItems at h
    obtain ⟨item', _, hitem, h⟩ := gives_bind.mp h
    obtain ⟨items', _, hitems, h⟩ := gives_bind.mp h
    obtain ⟨rfl, -⟩ := gives_pure.mp h
    have hfirst : Option.Rel Folded item item' :=
      rel_of_gives_foldChild (fun n hn => htree n (hn ▸ List.mem_cons_self)) hitem
    exact .cons hfirst (ih (fun n hn => htree n (List.mem_cons_of_mem _ hn)) hitems)

theorem folded_of_gives_fold {n : Node} : ∀ {a m a'}, Gives n.fold a m a' → Folded n m := by
  induction n using Tree.ind with
  | leaf stamp form =>
    intro a m a' h
    obtain ⟨stamp', hpos, rfl⟩ := gives_allocAt h
    exact .leaf hpos
  | seq stamp form items ih =>
    intro a m a' h
    unfold fold at h
    obtain ⟨items', _, hfold, h⟩ := gives_bind.mp h
    obtain ⟨stamp', hpos, rfl⟩ := gives_allocAt h
    exact .seq hpos (foldedItems_of_gives ih hfold)
  | unary stamp form child ih _ =>
    intro a m a' h
    unfold fold at h
    obtain ⟨child', _, hfold, h⟩ := gives_bind.mp h
    obtain ⟨stamp', hpos, rfl⟩ := gives_allocAt h
    exact .unary hpos (rel_of_gives_foldChild ih hfold)
  | binary stamp form left right ihl ihr =>
    intro a m a' h
    unfold fold at h
    obtain ⟨left', _, hleft, h⟩ := gives_bind.mp h
    obtain ⟨right', _, hright, h⟩ := gives_bind.mp h
    have hl := rel_of_gives_foldChild ihl hleft
    have hr := rel_of_gives_foldChild ihr hright
    split at h
    · next op =>
      -- the operator is kept, or a constant takes its place
      obtain ⟨stamp', hpos, ⟨hform, rfl⟩ | ⟨v, hv, rfl⟩⟩ := gives_foldArithmetic h
      · exact .binary hpos hl hr hform
      · exact .constant hpos hl hr hv
    · next hform =>
      obtain ⟨stamp', hpos, rfl⟩ := gives_allocAt h
      exact .binary hpos hl hr (BinaryForm.constant?_eq_none _ _ hform)
  | ternary stamp form first second third ih₁ ih₂ ih₃ =>
    intro a m a' h
    unfold fold at h
    obtain ⟨first', _, h₁, h⟩ := gives_bind.mp h
    obtain ⟨second', _, h₂, h⟩ := gives_bind.mp h
    obtain ⟨third', _, h₃, h⟩ := gives_bind.mp h
    obtain ⟨stamp', hpos, rfl⟩ := gives_allocAt h
    exact .ternary hpos (rel_of_gives_foldChild ih₁ h₁) (rel_of_gives_foldChild ih₂ h₂)
      (rel_of_gives_foldChild ih₃ h₃)

end Fold

/-- What folding makes of the root of a file. -/
theorem rel_of_fold {generation : UInt32} {f g : File} (h : f.fold generation = .ok g) :
    Option.Rel Folded f.root g.root := by
  unfold File.fold at h
  split at h
  · next root arena hrun =>
    obtain rfl := Except.ok.inj h
    have hgives : Gives (foldChild f.root) (Arena.empty generation) root arena := hrun
    exact rel_of_gives_foldChild (fun _ _ => folded_of_gives_fold) hgives
  · cases h

/-! ## Induction on a tree and its copy -/

section Induction

variable {motive : Node → Node → Prop} {m n : Option Node}

/-- Two children of which the proof knows something. -/
abbrev Both (motive : Node → Node → Prop) : Option Node → Option Node → Prop :=
  Option.Rel fun n m => Folded n m ∧ motive n m

theorem Both.folded (h : Both motive n m) : Option.Rel Folded n m := by
  cases h with
  | none => exact .none
  | some h => exact .some h.1

theorem Both.of_folded (hall : ∀ {n m}, Folded n m → motive n m) (h : Option.Rel Folded n m) :
    Both motive n m := by
  cases h with
  | none => exact .none
  | some h => exact .some ⟨h, hall h⟩

/-- A node with one child gets, besides the hypothesis for the child, that for the members of the
child, since the arguments of a call stand there. -/
@[elab_as_elim]
theorem Folded.ind
    (leaf : ∀ {stamp stamp' form}, stamp'.pos = stamp.pos →
      motive (.leaf stamp form) (.leaf stamp' form))
    (seq : ∀ {stamp stamp' form items items'}, stamp'.pos = stamp.pos →
      List.Forall₂ (Both motive) items items' →
      motive (.seq stamp form items) (.seq stamp' form items'))
    (unary : ∀ {stamp stamp' form child child'}, stamp'.pos = stamp.pos → Both motive child child' →
      (∀ {l l' f items items'}, child = some (.seq l f items) → child' = some (.seq l' f items') →
      List.Forall₂ (Both motive) items items') →
      motive (.unary stamp form child) (.unary stamp' form child'))
    (binary : ∀ {stamp stamp' form left left' right right'}, stamp'.pos = stamp.pos →
      Both motive left left' → Both motive right right' → form.constant? left' right' = none →
      motive (.binary stamp form left right) (.binary stamp' form left' right'))
    (constant : ∀ {stamp stamp' form left left' right right' v}, stamp'.pos = stamp.pos →
      Both motive left left' → Both motive right right' →
      form.constant? left' right' = some (.ok v) → motive (.binary stamp form left right)
      (.leaf stamp' (.intConst v)))
    (ternary : ∀ {stamp stamp' form first first' second second' third third'}, stamp'.pos =
      stamp.pos → Both motive first first' → Both motive second second' → Both motive third third' →
      motive (.ternary stamp form first second third) (.ternary stamp' form first' second' third'))
    {n m : Node} (h : Folded n m) : motive n m := by
  -- the recursor with a motive that also covers the members of a list node
  let Members (n m : Node) : Prop :=
    ∀ {l l' f items items'}, n = .seq l f items → m = .seq l' f items' →
      List.Forall₂ (Both motive) items items'
  have hone {child child' : Option Node}
      (h : Option.Rel (fun n m => Folded n m ∧ motive n m ∧ Members n m) child child') :
      Both motive child child' := by
    cases h with
    | none => exact .none
    | some h => exact .some ⟨h.1, h.2.1⟩
  have hboth : motive n m ∧ Members n m := by
    refine @Folded.rec (fun n m _ => motive n m ∧ Members n m)
      (fun ns ms _ => List.Forall₂ (Both motive) ns ms)
      (fun n m _ => Option.Rel (fun n m => Folded n m ∧ motive n m ∧ Members n m) n m)
      ?leaf ?seq ?unary ?binary ?constant ?ternary ?nil ?cons ?present ?missing n m h
    case leaf => exact fun hpos => ⟨leaf hpos, nofun⟩
    case seq =>
      intro stamp stamp' form items items' hpos hitems ih
      refine ⟨seq hpos ih, ?_⟩
      rintro _ _ _ _ _ ⟨⟩ ⟨⟩
      exact ih
    case unary =>
      intro stamp stamp' form child child' hpos hchild ih
      refine ⟨unary hpos (hone ih) ?_, nofun⟩
      rintro l l' f items items' rfl rfl
      cases ih with
      | some h => exact h.2.2 rfl rfl
    case binary =>
      exact fun hpos _ _ hform ihl ihr => ⟨binary hpos (hone ihl) (hone ihr) hform, nofun⟩
    case constant =>
      exact fun hpos _ _ hform ihl ihr => ⟨constant hpos (hone ihl) (hone ihr) hform, nofun⟩
    case ternary =>
      exact fun hpos _ _ _ ih₁ ih₂ ih₃ => ⟨ternary hpos (hone ih₁) (hone ih₂) (hone ih₃), nofun⟩
    case nil => exact .nil
    case cons => exact fun _ _ ih ihs => .cons (hone ih) ihs
    case present => exact fun h ih => .some ⟨h, ih⟩
    case missing => exact .none
  exact hboth.1

end Induction

/-! ## Names

Whoever asks for the names that a child lists gets the same answer from the folded copy. -/

/-- The names that a child lists, and the stars before them. -/
def names? : Option Node → Option (List String × Int)
  | some (.leaf _ (.names names stars)) => some (names, stars)
  | _ => none

theorem names?_folded {n m : Option Node} (h : Option.Rel Folded n m) : names? m = names? n := by
  cases h with
  | none => rfl
  | some h =>
    cases h with
    | @leaf stamp stamp' form hpos => cases form <;> rfl
    | _ => rfl

end Node

end CSubset
