import CSubset.Proofs.Layout.Programs
import CSubset.Proofs.Tree.Nodes
import CSubset.Proofs.WellFormed.Lowering

/-!
# Reports about a text

Lowering a text that can be read ends, and what it rejects is a report about the text: it has a
cause that does not lie in the form of the tree, and blames a node at the position of a token
(`reports_at_tokens`).

That the nodes are at tokens follows from how positions are handed on. Moving every position that
belongs to no token changes nothing in the tokens, so it changes nothing in the tree
(`Node.at_token`). A report in turn is at a node, which lowering the tree beside itself shows.
-/

namespace CSubset

variable {c : Cursor}

theorem Cursor.line_advance (h : 0 < c.pos.line) : 0 < c.advance.pos.line := by
  unfold Cursor.advance
  split
  · show 0 < c.pos.line + 1
    omega
  · exact h

theorem Cursor.line_advanceBy (n : Nat) (h : 0 < c.pos.line) : 0 < (c.advanceBy n).pos.line := by
  induction n generalizing c with
  | zero => exact h
  | succ n ih => exact ih (Cursor.line_advance h)

theorem TokenStream.isKnown_of_ofCursor (c : Cursor) (hc : 0 < c.pos.line) :
    ∀ t ∈ (TokenStream.ofCursor c).tokens, t.pos.isKnown = true := by
  induction c using TokenStream.ofCursor.induct with
  | case1 c hnone => simp [TokenStream.ofCursor_of_none hnone]
  | case2 c lexeme hsome ih =>
    rw [TokenStream.ofCursor_of_some hsome]
    have hgap : 0 < c.skipGap.pos.line := Cursor.line_advanceBy _ hc
    intro t ht
    rcases List.mem_cons.mp ht with rfl | ht
    · exact decide_eq_true hgap
    · exact ih (Cursor.line_advanceBy _ hgap) t ht

theorem TokenStream.isKnown_of_mem {text : List Char} {t : Token}
    (h : t ∈ (TokenStream.ofText text).tokens) : t.pos.isKnown = true :=
  TokenStream.isKnown_of_ofCursor (Cursor.start text) Int.one_pos t h

/-! ## Moving what belongs to no token

A node that stays wherever such positions are moved to stands at a token. -/

/-- Move the positions that belong to no token to `away`. -/
def keeping (tokens : List Token) (away p : Pos) : Pos := if p ∈ tokens.map (·.pos) then p else away

/-- Tokens stay where they are. -/
theorem relocate_keeping (tokens : List Token) (away : Pos) :
    tokens.map (Token.relocate (keeping tokens away)) = tokens := by
  refine (List.map_congr_left fun t ht => ?_).trans (List.map_id tokens)
  have hpos : keeping tokens away t.pos = t.pos := if_pos (List.mem_map_of_mem ht)
  show (⟨t.kind, t.text, keeping tokens away t.pos⟩ : Token) = t
  rw [hpos]

/-- If only `p` itself is where `p` can be moved, a token is at `p`. -/
theorem mem_of_keeping {tokens : List Token} {p : Pos} (h : ∀ away, keeping tokens away p = p) :
    ∃ t ∈ tokens, t.pos = p := by
  by_contra hnone
  have hmem : p ∉ tokens.map (·.pos) := fun hmem => hnone (List.mem_map.mp hmem)
  have hline := congrArg Pos.line (h ⟨p.line + 1, p.col⟩)
  rw [keeping, if_neg hmem] at hline
  simp at hline

section

variable {text : List Char} {f : Pos → Pos} {g : UInt32} {file : File} {path : String}

/-- A program whose tokens stay where they are stays the same. -/
theorem Surface.Program.relocate_of_ofText {program : Program}
    (hread : Program.ofText text = .ok program)
    (hf : (TokenStream.ofText text).tokens.map (Token.relocate f) =
      (TokenStream.ofText text).tokens) (hne : (TokenStream.ofText text).tokens ≠ []) :
    program.relocate f = program := by
  obtain ⟨hmembers, hpos⟩ := Program.ofText_eq_ok_iff.mp hread
  have hexternals : program.externals.map (External.relocate f) = program.externals := by
    have hmoved := hmembers.relocate (f := f)
    rw [hf] at hmoved
    have hread' := Parser.externals_eq_ok_iff.mpr hmoved
    rw [Parser.externals_eq_ok_iff.mpr hmembers] at hread'
    exact (Except.ok.inj hread').symm
  have hfirst : f program.pos = program.pos := by
    cases htokens : (TokenStream.ofText text).tokens with
    | nil => exact absurd htokens hne
    | cons t ts =>
      rw [htokens, List.map_cons] at hf
      have hpos' := congrArg Token.pos (List.cons.inj hf).1
      rw [hpos, htokens]
      exact hpos'
  show (⟨f program.pos, _⟩ : Program) = program
  rw [hexternals, hfirst]

theorem File.relocate_of_parse (hparse : File.parse g path text = .ok file)
    (hf : (TokenStream.ofText text).tokens.map (Token.relocate f) =
      (TokenStream.ofText text).tokens) (hne : (TokenStream.ofText text).tokens ≠ []) :
    file.root.map (Node.relocate g f) = file.root := by
  obtain ⟨program, hread, rfl⟩ := File.parse_eq_ok_iff.mp hparse
  obtain ⟨hroot, -⟩ := program.moves_build _ _ (Arena.relocated_empty f g g)
  rw [Surface.Program.relocate_of_ofText hread hf hne] at hroot
  exact congrArg some hroot.symm

/-- A text without tokens has no members. -/
theorem File.items_of_parse {stamp : Stamp} {items : List (Option Node)}
    (hparse : File.parse g path text = .ok file)
    (hroot : file.root = some (.seq stamp .program items))
    (hnil : (TokenStream.ofText text).tokens = []) : items = [] := by
  obtain ⟨program, hread, rfl⟩ := File.parse_eq_ok_iff.mp hparse
  obtain ⟨hmembers, -⟩ := Surface.Program.ofText_eq_ok_iff.mp hread
  have hexternals : program.externals = [] := by
    rw [hnil] at hmembers
    have hread' := Surface.Parser.externals_eq_ok_iff.mpr hmembers
    rw [Surface.Parser.externals_eq_ok_iff.mpr .nil] at hread'
    exact (Except.ok.inj hread').symm
  obtain ⟨pos, externals⟩ := program
  obtain rfl : externals = [] := hexternals
  exact ((Tree.seq.inj (Option.some.inj hroot)).2.2).symm

theorem File.relocate_of_fold {generation : UInt32} {folded : File}
    (hfile : file.root.map (Node.relocate g f) = file.root)
    (hfold : file.fold generation = .ok folded) :
    folded.root.map (Node.relocate generation f) = folded.root := by
  obtain ⟨hresult, -⟩ :=
    Node.moves_foldChild (h := g) file.root _ _ (Arena.relocated_empty f generation generation)
  rw [Node.mapChild_eq, hfile] at hresult
  unfold File.fold at hfold
  split at hfold
  next root arena hrun =>
    obtain rfl := Except.ok.inj hfold
    rw [hrun] at hresult
    exact (Except.ok.inj hresult).symm
  next => cases hfold

/-- The nodes of a tree that stays where it is if the tokens do are at tokens. -/
theorem Node.at_token {tokens : List Token} {n u : Node}
    (hstays : ∀ away, n.relocate g (keeping tokens away) = n) (hu : u ∈ n.postorder) :
    ∃ t ∈ tokens, t.pos = u.pos := by
  refine mem_of_keeping fun away => ?_
  have hmap : n.postorder.map (Node.relocate g (keeping tokens away)) =
      n.postorder.map fun u => u := by
    rw [List.map_id']
    exact (Tree.postorder_map _ n).symm.trans (congrArg Tree.postorder (hstays away))
  have hpos := congrArg Node.pos (List.map_inj_left.mp hmap u hu)
  cases u <;> exact hpos

namespace Lowering

theorem plain_start (sourceName : String) : (State.start sourceName).Plain where
  slots _ _ _ h := absurd h List.not_mem_nil
  funcs _ h := absurd h List.not_mem_nil
  ret _ h := absurd h (Option.some_ne_none _).symm
  reports _ h := absurd h List.not_mem_nil

/-- Lowering the tree ends. The report has one error for each rejection, and every rejection has a
cause that does not lie in the form of the tree and blames a node at the position of one of the
tokens, which is a known position. -/
def ReportsAt (tokens : List Token) (root : Option Node) : Prop :=
  ∀ sourceName, ∃ out, build sourceName root = .ok out ∧
    out.result = Failure.ofDiagnostics? (out.state.rejections.map Rejection.diagnostic) ∧
    ∀ r ∈ out.state.rejections, r.cause.isInternal = false ∧
      ∃ place, r.place = some place ∧ place.pos.isKnown = true ∧ ∃ t ∈ tokens, t.pos = place.pos

/-- Members of the right form that stay where they are if the tokens do. -/
theorem reportsAt_of_members {stamp : Stamp} {items : List (Option Node)}
    (hitems : Node.AllItems Node.IsMember items)
    (hstays : items ≠ [] → ∀ away, Node.relocate g (keeping (TokenStream.ofText text).tokens away)
      (.seq stamp .program items) = .seq stamp .program items) :
    ReportsAt (TokenStream.ofText text).tokens (some (.seq stamp .program items)) := by
  intro sourceName
  obtain ⟨out, hbuild, hgives⟩ := build_of_whole sourceName (Node.whole_of_members hitems)
  have hsteady := (State.sound_start sourceName).toSteady
  refine ⟨out, hbuild, congrArg Outcome.result (build_eq_ok_iff_members.mp hbuild).2,
    fun r hr => ?_⟩
  obtain ⟨hcause, hplace⟩ :=
    (plain_of_visitTopLevel hitems hsteady (plain_start sourceName) hgives).reports r hr
  obtain ⟨place, hplace⟩ := Option.isSome_iff_exists.mp hplace
  have hne : items ≠ [] := by
    rintro rfl
    rw [gives_visitTopLevel_nil.mp hgives] at hr
    exact absurd hr List.not_mem_nil
  -- every node is at a token, so is each place that lowering the tree beside itself relates to
  -- itself
  have hlike : Node.Like (fun p _ => ∃ t ∈ (TokenStream.ofText text).tokens, t.pos = p)
      (.seq stamp .program items) (.seq stamp .program items) :=
    .refl fun u hu => Node.at_token (hstays hne) hu
  obtain ⟨t, ht, hpos⟩ : ∃ t ∈ (TokenStream.ofText text).tokens, t.pos = place.pos := by
    cases hlike with
    | seq _ hlikes =>
      have hnear := (List.forall₂_same.mp (near_of_like hlikes hgives hgives).rejections r hr).place
      rw [hplace] at hnear
      cases hnear with
      | some hnear => exact hnear.2
  exact ⟨hcause, place, hplace, hpos ▸ TokenStream.isKnown_of_mem ht, t, ht, hpos⟩

end Lowering

end

namespace Lowering

/-- A text that can be read is lowered without a fault, and all that is reported about it is about
the program: no error comes from the form of the tree, and each blames a node at the known position
of a token of the text. So is its folded tree, if it can be folded. -/
theorem reports_at_tokens {generation : UInt32} {path : String} {text : List Char} {file : File}
    (hparse : File.parse generation path text = .ok file) :
    ReportsAt (TokenStream.ofText text).tokens file.root ∧
      ∀ generation' folded, file.fold generation' = .ok folded →
        ReportsAt (TokenStream.ofText text).tokens folded.root := by
  obtain ⟨stamp, items, hroot, hitems⟩ := File.members_of_parse hparse
  have hstays (hne : items ≠ []) (away : Pos) : file.root.map
      (Node.relocate generation (keeping (TokenStream.ofText text).tokens away)) = file.root :=
    File.relocate_of_parse hparse (relocate_keeping _ away) fun hnil => hne
      (File.items_of_parse hparse hroot hnil)
  constructor
  · rw [hroot] at hstays ⊢
    exact reportsAt_of_members hitems fun hne away => Option.some.inj (hstays hne away)
  · intro generation' folded hfold
    obtain ⟨copy, hcopy, hfolded⟩ := eq_some_of_rel (Node.rel_of_fold hfold) hroot
    cases hfolded with
    | seq _ hfoldedItems =>
      have hitems' := hitems.folded (fun n hn _ hm => (hitems.2 n hn).folded hm) hfoldedItems
      rw [hcopy]
      refine reportsAt_of_members (g := generation') hitems' fun hne away => ?_
      have hne : items ≠ [] := by
        rintro rfl
        exact hne (List.forall₂_nil_left_iff.mp hfoldedItems)
      have hmoved := File.relocate_of_fold (hstays hne away) hfold
      rw [hcopy] at hmoved
      exact Option.some.inj hmoved

/-- The first value of a variable outside functions, arithmetic that is folded, and a call of a
function that is not declared. -/
def faulted : List Char :=
  "int g = 3; int f(int a) { return a + 2 * 3; } int h() { return k(1); }".toList

theorem faulted_reports_at_tokens :
    ∃ file folded out, File.parse 0 "a.c" faulted = .ok file ∧ file.fold 1 = .ok folded ∧
    build "a.c" file.root = .ok out ∧ out.state.rejections.length = 2 ∧
    ReportsAt (TokenStream.ofText faulted).tokens file.root ∧
    ReportsAt (TokenStream.ofText faulted).tokens folded.root := by
  have hcheck : ((File.parse 0 "a.c" faulted).toOption.any fun file => (file.fold 1).toOption.any
      fun _ => file.root.any fun root =>
      ((visitTopLevel root.children).run.run (State.start "a.c")).2.rejections.length =
      2) = true := by
    decide +kernel
  obtain ⟨file, hparse, hcheck⟩ := exists_ok_of_any hcheck
  obtain ⟨folded, hfold, hcheck⟩ := exists_ok_of_any hcheck
  obtain ⟨hraw, hfolded⟩ := reports_at_tokens hparse
  obtain ⟨stamp, items, hroot⟩ := File.root_of_parse hparse
  obtain ⟨out, hbuild, -⟩ := hraw "a.c"
  have hrun : (visitTopLevel items).run.run (State.start "a.c") = (.ok (), out.state) :=
    (build_eq_ok_iff_members.mp (hroot ▸ hbuild)).1
  have hcount : out.state.rejections.length = 2 := by
    rw [hroot, Option.any_some, Tree.children, hrun] at hcheck
    exact of_decide_eq_true hcheck
  exact ⟨file, folded, out, hparse, hfold, hbuild, hcount, hraw, hfolded 1 folded hfold⟩

end Lowering

end CSubset
