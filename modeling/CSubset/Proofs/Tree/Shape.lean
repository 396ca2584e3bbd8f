import CSubset.Proofs.Related
import CSubset.Proofs.Tree.Nodes
import CSubset.Tree.Arena

/-!
# Trees of one shape

Two trees of one shape have the same forms all the way down, with children in the same places.
`Node.Like` says so constructor by constructor, and it says that the positions of the nodes are
related in some way. If any two positions are, only the shape counts (`Node.sameShape_iff`). A proof
about two such trees goes by induction on both at once (`Like.ind`).
-/

namespace CSubset.Node

variable {c d : Option Node} {cs ds : List (Option Node)} {motive' : Node → Node → Prop}

/-- The trees differ in identities, and in positions that are related by `R`. -/
inductive Like (R : Pos → Pos → Prop) : Node → Node → Prop
  | leaf {stamp stamp' : Stamp} {form : Leaf} (hpos : R stamp.pos stamp'.pos) :
    Like R (.leaf stamp form) (.leaf stamp' form)
  | seq {stamp stamp' : Stamp} {form : SeqForm} {items items' : List (Option Node)}
    (hpos : R stamp.pos stamp'.pos) (hitems : List.Forall₂ (Option.Rel (Like R)) items items') :
    Like R (.seq stamp form items) (.seq stamp' form items')
  | unary {stamp stamp' : Stamp} {form : UnaryForm} {child child' : Option Node}
    (hpos : R stamp.pos stamp'.pos) (hchild : Option.Rel (Like R) child child') :
    Like R (.unary stamp form child) (.unary stamp' form child')
  | binary {stamp stamp' : Stamp} {form : BinaryForm} {left left' right right' : Option Node}
    (hpos : R stamp.pos stamp'.pos) (hleft : Option.Rel (Like R) left left')
    (hright : Option.Rel (Like R) right right') :
    Like R (.binary stamp form left right) (.binary stamp' form left' right')
  | ternary {stamp stamp' : Stamp} {form : TernaryForm}
    {first first' second second' third third' : Option Node} (hpos : R stamp.pos stamp'.pos)
    (hfirst : Option.Rel (Like R) first first') (hsecond : Option.Rel (Like R) second second')
    (hthird : Option.Rel (Like R) third third') :
    Like R (.ternary stamp form first second third) (.ternary stamp' form first' second' third')

/-- The trees differ in identities and positions only. -/
abbrev SameShape : Node → Node → Prop := Like fun _ _ => True

variable {R : Pos → Pos → Prop} {n m : Node} {motive : Node → Node → Prop}

theorem Like.kind (h : Like R n m) : m.kind = n.kind := by
  cases h <;> rfl

theorem Like.near (h : Like R n m) : R n.pos m.pos := by
  cases h <;> assumption

/-- A tree is like itself if each of its positions is related to itself. -/
theorem Like.refl (h : ∀ u ∈ n.postorder, R (pos u) (pos u)) : Like R n n := by
  have hself (n : Node) (h : ∀ u ∈ n.postorder, R (pos u) (pos u)) : R n.pos n.pos :=
    h n n.mem_postorder_self
  have hchild {t : Node} {c : Option Node} (hc : c ∈ t.children)
      (ht : ∀ u ∈ t.postorder, R (pos u) (pos u))
      (ih : ∀ n, c = some n → (∀ u ∈ n.postorder, R (pos u) (pos u)) → Like R n n) :
      Option.Rel (Like R) c c := by
    cases c with
    | none => exact .none
    | some n => exact .some (ih n rfl fun u hu => ht u (Tree.mem_postorder_of_child hc hu))
  induction n using Tree.ind with
  | leaf stamp form => exact .leaf (hself _ h)
  | seq stamp form items ih =>
    refine .seq (hself _ h) (List.forall₂_same.mpr fun c hc => ?_)
    exact hchild (t := .seq stamp form items) hc h fun n hn => ih n (hn ▸ hc)
  | unary stamp form child ih => exact .unary (hself _ h) (hchild (by simp [Tree.children]) h ih)
  | binary stamp form left right ihl ihr =>
    exact .binary (hself _ h) (hchild (by simp [Tree.children]) h ihl)
      (hchild (by simp [Tree.children]) h ihr)
  | ternary stamp form first second third ih₁ ih₂ ih₃ =>
    exact .ternary (hself _ h) (hchild (by simp [Tree.children]) h ih₁)
      (hchild (by simp [Tree.children]) h ih₂) (hchild (by simp [Tree.children]) h ih₃)

/-! ## Shapes -/

/-- Children without labels are equal if the children are related by what follows from equal
shapes. -/
theorem mapChild_eq_iff
    (hc : ∀ t, c = some t → ∀ u : Node, t.shape = u.shape ↔ motive t u) :
    Tree.mapChild (fun _ => ()) c = Tree.mapChild (fun _ => ()) d ↔ Option.Rel motive c d := by
  rcases c with _ | t <;> rcases d with _ | u
  · exact iff_of_true rfl .none
  · exact iff_of_false nofun nofun
  · exact iff_of_false nofun nofun
  · refine Option.some_inj.trans ((hc t rfl u).trans ⟨.some, ?_⟩)
    rintro ⟨h⟩
    assumption

theorem mapItems_eq_iff
    (hcs : ∀ t, some t ∈ cs → ∀ u : Node, t.shape = u.shape ↔ motive t u) :
    Tree.mapItems (fun _ => ()) cs = Tree.mapItems (fun _ => ()) ds ↔
      List.Forall₂ (Option.Rel motive) cs ds := by
  induction cs generalizing ds with
  | nil => cases ds <;> simp [Tree.mapItems]
  | cons c cs ih =>
    cases ds with
    | nil => simp [Tree.mapItems]
    | cons d ds =>
      have hfirst := mapChild_eq_iff (d := d) fun t ht => hcs t (ht ▸ List.mem_cons_self)
      have hrest := @ih ds fun t ht => hcs t (List.mem_cons_of_mem _ ht)
      rw [Tree.mapItems, Tree.mapItems, List.cons_eq_cons, hfirst, hrest, List.forall₂_cons]

theorem sameShape_iff : n.shape = m.shape ↔ SameShape n m := by
  unfold Tree.shape
  -- the shape keeps the constructor, so each case has one form of `m` left
  induction n using Tree.ind generalizing m with
  | leaf l form =>
    constructor
    · intro h
      cases m <;> simp only [Tree.map, reduceCtorEq, Tree.leaf.injEq] at h
      obtain ⟨-, rfl⟩ := h
      exact .leaf trivial
    · rintro ⟨⟩
      rfl
  | seq l form items ih =>
    constructor
    · intro h
      cases m <;> simp only [Tree.map, reduceCtorEq, Tree.seq.injEq] at h
      obtain ⟨-, rfl, h⟩ := h
      exact .seq trivial ((mapItems_eq_iff fun t ht u => ih t ht).mp h)
    · rintro (_ | ⟨-, hitems⟩)
      rw [Tree.map, Tree.map, (mapItems_eq_iff fun t ht u => ih t ht).mpr hitems]
  | unary l form child ih =>
    constructor
    · intro h
      cases m <;> simp only [Tree.map, reduceCtorEq, Tree.unary.injEq] at h
      obtain ⟨-, rfl, h⟩ := h
      exact .unary trivial ((mapChild_eq_iff fun t ht u => ih t ht).mp h)
    · rintro (_ | _ | ⟨-, hchild⟩)
      rw [Tree.map, Tree.map, (mapChild_eq_iff fun t ht u => ih t ht).mpr hchild]
  | binary l form left right ihl ihr =>
    constructor
    · intro h
      cases m <;> simp only [Tree.map, reduceCtorEq, Tree.binary.injEq] at h
      obtain ⟨-, rfl, hl, hr⟩ := h
      exact .binary trivial ((mapChild_eq_iff fun t ht u => ihl t ht).mp hl)
        ((mapChild_eq_iff fun t ht u => ihr t ht).mp hr)
    · rintro (_ | _ | _ | ⟨-, hl, hr⟩)
      rw [Tree.map, Tree.map, (mapChild_eq_iff fun t ht u => ihl t ht).mpr hl,
        (mapChild_eq_iff fun t ht u => ihr t ht).mpr hr]
  | ternary l form first second third ih₁ ih₂ ih₃ =>
    constructor
    · intro h
      cases m <;> simp only [Tree.map, reduceCtorEq, Tree.ternary.injEq] at h
      obtain ⟨-, rfl, h₁, h₂, h₃⟩ := h
      exact .ternary trivial ((mapChild_eq_iff fun t ht u => ih₁ t ht).mp h₁)
        ((mapChild_eq_iff fun t ht u => ih₂ t ht).mp h₂)
        ((mapChild_eq_iff fun t ht u => ih₃ t ht).mp h₃)
    · rintro (_ | _ | _ | _ | ⟨-, h₁, h₂, h₃⟩)
      rw [Tree.map, Tree.map, (mapChild_eq_iff fun t ht u => ih₁ t ht).mpr h₁,
        (mapChild_eq_iff fun t ht u => ih₂ t ht).mpr h₂,
        (mapChild_eq_iff fun t ht u => ih₃ t ht).mpr h₃]

theorem child_sameShape_iff : c.map Tree.shape = d.map Tree.shape ↔ Option.Rel SameShape c d := by
  rcases c with _ | n <;> rcases d with _ | m
  · exact iff_of_true rfl .none
  · exact iff_of_false nofun nofun
  · exact iff_of_false nofun nofun
  · rw [Option.map_some, Option.map_some, Option.some_inj, sameShape_iff]
    exact ⟨.some, fun h => by cases h; assumption⟩

/-! ## Induction -/

/-- Two children that are alike and of which the proof knows something. -/
abbrev Pair (R : Pos → Pos → Prop) (motive : Node → Node → Prop) :
    Option Node → Option Node → Prop :=
  Option.Rel fun n m => Like R n m ∧ motive n m

theorem Pair.like (h : Pair R motive c d) : Option.Rel (Like R) c d := by
  cases h with
  | none => exact .none
  | some h => exact .some h.1

theorem Pair.of_like (h : Option.Rel (Like R) c d)
    (hc : ∀ t, c = some t → ∀ u, Like R t u → motive t u) : Pair R motive c d := by
  cases h with
  | none => exact .none
  | some h => exact .some ⟨h, hc _ rfl _ h⟩

theorem Pair.imp (h : Pair R motive c d)
    (himp : ∀ t u, c = some t → motive t u → motive' t u) : Pair R motive' c d := by
  cases h with
  | none => exact .none
  | some h => exact .some ⟨h.1, himp _ _ rfl h.2⟩

theorem pairs_imp (h : List.Forall₂ (Pair R motive) cs ds)
    (himp : ∀ t u, some t ∈ cs → motive t u → motive' t u) :
    List.Forall₂ (Pair R motive') cs ds := by
  induction h with
  | nil => exact .nil
  | cons hfirst _ ih =>
    exact .cons (hfirst.imp fun t u ht => himp t u (ht ▸ List.mem_cons_self))
      (ih fun t u ht => himp t u (List.mem_cons_of_mem _ ht))

theorem pairs_of_like (h : List.Forall₂ (Option.Rel (Like R)) cs ds)
    (hcs : ∀ t, some t ∈ cs → ∀ u, Like R t u → motive t u) :
    List.Forall₂ (Pair R motive) cs ds := by
  induction h with
  | nil => exact .nil
  | cons hfirst _ ih =>
    exact .cons (.of_like hfirst fun t ht => hcs t (ht ▸ List.mem_cons_self))
      (ih fun t ht => hcs t (List.mem_cons_of_mem _ ht))

/-- Two children that are alike; if they are lists, the proof knows something of their members. -/
def Members (R : Pos → Pos → Prop) (motive : Node → Node → Prop) (c d : Option Node) : Prop :=
  ∀ ⦃l l' form items items'⦄, c = some (.seq l form items) → d = some (.seq l' form items') →
    List.Forall₂ (Pair R motive) items items'

/-- Besides the hypotheses for the children there are some for the members of a child, since the
arguments of a call and the statements of a function's body stand there. -/
theorem Like.ind
    (leaf : ∀ {stamp stamp' form}, R stamp.pos stamp'.pos →
      motive (.leaf stamp form) (.leaf stamp' form))
    (seq : ∀ {stamp stamp' form items items'}, R stamp.pos stamp'.pos →
      List.Forall₂ (Pair R motive) items items' →
      motive (.seq stamp form items) (.seq stamp' form items'))
    (unary : ∀ {stamp stamp' form child child'}, R stamp.pos stamp'.pos →
      Pair R motive child child' → Members R motive child child' →
      motive (.unary stamp form child) (.unary stamp' form child'))
    (binary : ∀ {stamp stamp' form left left' right right'}, R stamp.pos stamp'.pos →
      Pair R motive left left' → Pair R motive right right' → motive (.binary stamp form left right)
      (.binary stamp' form left' right'))
    (ternary : ∀ {stamp stamp' form first first' second second' third third'},
      R stamp.pos stamp'.pos → Pair R motive first first' → Pair R motive second second' →
      Pair R motive third third' → Members R motive third third' →
      motive (.ternary stamp form first second third) (.ternary stamp' form first' second' third'))
    (h : Like R n m) : motive n m := by
  -- what the hypotheses need to know of a child, in one motive
  suffices hall : ∀ m, Like R n m → motive n m ∧
    Members R motive (some n) (some m) from (hall m h).1
  clear h
  have hpair : ∀ {c d : Option Node},
      (∀ t, c = some t → ∀ u, Like R t u → motive t u ∧ Members R motive (some t) (some u)) →
      Option.Rel (Like R) c d → Pair R motive c d ∧ Members R motive c d := by
    intro c d ih hcd
    refine ⟨.of_like hcd fun t ht u hu => (ih t ht u hu).1, ?_⟩
    cases hcd with
    | none => exact nofun
    | some h => exact (ih _ rfl _ h).2
  induction n using Tree.ind with
  | leaf l form =>
    rintro _ ⟨hpos⟩
    exact ⟨leaf hpos, nofun⟩
  | seq l form items ih =>
    rintro _ (_ | ⟨hpos, hitems⟩)
    have hpairs := pairs_of_like hitems fun t ht u hu => (ih t ht u hu).1
    refine ⟨seq hpos hpairs, ?_⟩
    rintro _ _ _ _ _ ⟨⟩ ⟨⟩
    exact hpairs
  | unary l form child ih =>
    rintro _ (_ | _ | ⟨hpos, hchild⟩)
    obtain ⟨hchild, hmembers⟩ := hpair ih hchild
    exact ⟨unary hpos hchild hmembers, nofun⟩
  | binary l form left right ihl ihr =>
    rintro _ (_ | _ | _ | ⟨hpos, hl, hr⟩)
    exact ⟨binary hpos (hpair ihl hl).1 (hpair ihr hr).1, nofun⟩
  | ternary l form first second third ih₁ ih₂ ih₃ =>
    rintro _ (_ | _ | _ | _ | ⟨hpos, h₁, h₂, h₃⟩)
    obtain ⟨hthird, hmembers⟩ := hpair ih₃ h₃
    exact ⟨ternary hpos (hpair ih₁ h₁).1 (hpair ih₂ h₂).1 hthird hmembers, nofun⟩

end CSubset.Node
