import CSubset.Proofs.Tree.Ownership
import CSubset.Tree.Forest
import Mathlib.Data.List.Nodup
import Mathlib.Logic.Relation

/-!
# Trees in a forest

What happens in a forest leaves the generations of its arenas as they are and gives a new arena a
new one (`Forest.Grows`). So among the first `2 ^ 32` arenas no two have the same generation, and
what one of them holds is not in any other. A tree that is read or folded has its nodes for itself
(`Forest.Exclusive`): they are in its arena, no two under the same identity, and in no other arena
then or later.
-/

namespace CSubset.Forest

variable {file : File} {root : Node} {a : Arena} {i : Nat}

/-- What can happen in a forest. -/
inductive Step : Forest → Forest → Prop
  | newArena (f : Forest) : Step f f.newArena
  | parse (f : Forest) (text : List Char) : Step f (f.parse text).2
  | fold (f : Forest) (file : File) : Step f (f.fold file).2
  | within {f f' : Forest} {α : Type} {generation : UInt32} {step : Alloc α} {result : α}
    (hstep : ∀ a, (step.run a).2.generation = a.generation)
    (h : f.within generation step = some (result, f')) : Step f f'
  | modify (f : Forest) (target : NodeId) (change : Node → Node) : Step f (f.modify target change)

/-- The second forest comes from the first. -/
abbrev Later : Forest → Forest → Prop := Relation.ReflTransGen Step

abbrev Reached (f : Forest) : Prop := Later empty f

/-! ## Generations

Arenas are numbered in the order in which they are made. The generation of an arena is its number as
a word, so it is the arena's own as long as there are no more than `2 ^ 32` numbers.
-/

def generations (f : Forest) : List UInt32 := f.arenas.map Arena.generation

/-- The arenas of the first forest keep their places and generations. New ones have numbers that
were not used. -/
structure Grows (f f' : Forest) : Prop where
  next_le : f.next ≤ f'.next
  added : ∃ new : List Nat, f'.generations = f.generations ++ new.map .ofNat ∧ new.Nodup ∧
    ∀ k ∈ new, f.next ≤ k ∧ k < f'.next

variable {f f' f'' : Forest}

theorem Grows.trans (h : f.Grows f') (h' : f'.Grows f'') : f.Grows f'' := by
  obtain ⟨new, hnew, hdistinct, hbounds⟩ := h.added
  obtain ⟨new', hnew', hdistinct', hbounds'⟩ := h'.added
  refine ⟨Nat.le_trans h.next_le h'.next_le, new ++ new', ?_, ?_, ?_⟩
  · rw [hnew', hnew, List.append_assoc, List.map_append]
  · refine List.nodup_append.mpr ⟨hdistinct, hdistinct', fun k hk k' hk' heq => ?_⟩
    have hlt := (hbounds k hk).2
    have hle := (hbounds' k' hk').1
    omega
  · intro k hk
    rcases List.mem_append.mp hk with hk | hk
    · exact ⟨(hbounds k hk).1, Nat.lt_of_lt_of_le (hbounds k hk).2 h'.next_le⟩
    · exact ⟨Nat.le_trans h.next_le (hbounds' k hk).1, (hbounds' k hk).2⟩

theorem Grows.of_eq (hnext : f.next ≤ f'.next) (h : f'.generations = f.generations) : f.Grows f' :=
  ⟨hnext, [], by rw [h, List.map_nil, List.append_nil], List.nodup_nil, nofun⟩

theorem Grows.push (h : a.generation = f.generation) : f.Grows ⟨f.next + 1, f.arenas ++ [a]⟩ := by
  refine ⟨Nat.le_succ _, [f.next], ?_, List.nodup_singleton _, ?_⟩
  · rw [generations, List.map_append, List.map_singleton, h]
    rfl
  · intro k hk
    rw [List.mem_singleton.mp hk]
    exact ⟨Nat.le_refl _, Nat.lt_succ_self _⟩

/-- The cases of reading a text. -/
theorem parse_cases (f : Forest) (text : List Char) :
    (∃ file, f.parse text = (.ok file, ⟨f.next + 1, f.arenas ++ [file.arena]⟩) ∧
      file.OwnsTree f.generation ∧
        ∃ root, file.root = some root) ∨
      ∃ e, f.parse text = (.error e, ⟨f.next + 1, f.arenas⟩) := by
  unfold Forest.parse
  cases h : File.parse f.generation "" text with
  | ok file =>
    obtain ⟨_, _, hroot⟩ := File.root_of_parse h
    exact .inl ⟨file, rfl, File.ownsTree_of_parse h, _, hroot⟩
  | error e => exact .inr ⟨e, rfl⟩

/-- The cases of folding a file. -/
theorem fold_cases (f : Forest) (file : File) :
    (∃ folded, f.fold file = (.ok folded, ⟨f.next + 1, f.arenas ++ [folded.arena]⟩) ∧
      folded.OwnsTree f.generation ∧
        Option.Rel Node.Folded file.root folded.root) ∨
      ∃ e, f.fold file = (.error e, ⟨f.next + 1, f.arenas⟩) := by
  unfold Forest.fold
  cases h : file.fold f.generation with
  | ok folded => exact .inl ⟨folded, rfl, File.ownsTree_of_fold h, Node.rel_of_fold h⟩
  | error e => exact .inr ⟨e, rfl⟩

theorem Step.grows (h : Step f f') : f.Grows f' := by
  cases h with
  | newArena => exact .push rfl
  | parse text =>
    obtain ⟨file, heq, howns, -⟩ | ⟨e, heq⟩ := f.parse_cases text
    · rw [heq]
      exact .push howns.1
    · rw [heq]
      exact .of_eq (Nat.le_succ _) rfl
  | fold file =>
    obtain ⟨folded, heq, howns, -⟩ | ⟨e, heq⟩ := f.fold_cases file
    · rw [heq]
      exact .push howns.1
    · rw [heq]
      exact .of_eq (Nat.le_succ _) rfl
  | @within _ _ generation step _ hstep h =>
    obtain ⟨a, ha, h⟩ := Option.bind_eq_some_iff.mp h
    obtain ⟨-, rfl⟩ := Prod.mk.inj (Option.some.inj h)
    have hgeneration : a.generation = generation := by simpa using List.find?_some ha
    refine .of_eq (Nat.le_refl _) ?_
    rw [generations, generations, List.map_map]
    refine List.map_congr_left fun old _ => ?_
    by_cases hold : old.generation = generation
    · simp only [Function.comp_apply, hold, if_true]
      exact (hstep a).trans hgeneration
    · simp [hold]
  | modify target change =>
    refine .of_eq (Nat.le_refl _) ?_
    rw [generations, generations, Forest.modify, List.map_map]
    rfl

theorem Later.grows (h : Later f f') : f.Grows f' := by
  induction h with
  | refl => exact .of_eq (Nat.le_refl _) rfl
  | tail _ hstep ih => exact ih.trans hstep.grows

theorem Later.length_le (h : Later f f') : f.arenas.length ≤ f'.arenas.length := by
  obtain ⟨new, hnew, -, -⟩ := h.grows.added
  have hlength := congrArg List.length hnew
  rw [List.length_append, generations, generations, List.length_map, List.length_map] at hlength
  omega

theorem Reached.nodup (h : Reached f) (hfits : f.next ≤ UInt32.size) : f.generations.Nodup := by
  obtain ⟨new, hnew, hdistinct, hbounds⟩ := (Later.grows h).added
  rw [hnew]
  refine (List.nodup_map_iff_inj_on hdistinct).mpr fun k hk k' hk' heq => ?_
  -- below the bound a number can be read off the word
  have hlt := Nat.lt_of_lt_of_le (hbounds k hk).2 hfits
  have hlt' := Nat.lt_of_lt_of_le (hbounds k' hk').2 hfits
  have hnat := congrArg UInt32.toNat heq
  rwa [UInt32.toNat_ofNat', UInt32.toNat_ofNat', Nat.mod_eq_of_lt hlt,
    Nat.mod_eq_of_lt hlt'] at hnat

/-- An arena is the only one of its generation, now and later. -/
theorem generation_unique (h : Reached f') (hfits : f'.next ≤ UInt32.size) (hlater : Later f f')
    {j : Nat} {b : Arena} (ha : f.arenas[i]? = some a) (hb : f'.arenas[j]? = some b) (hij : j ≠ i) :
    a.generation ≠ b.generation := by
  obtain ⟨new, hnew, -, -⟩ := hlater.grows.added
  have hi : f'.generations[i]? = some a.generation := by
    have hold : f.generations[i]? = some a.generation := by
      rw [generations, List.getElem?_map, ha]; rfl
    rw [hnew, List.getElem?_append_left (List.getElem?_eq_some_iff.mp hold).1, hold]
  have hj : f'.generations[j]? = some b.generation := by
    rw [generations, List.getElem?_map, hb]; rfl
  intro heq
  rw [← heq, ← hi] at hj
  have hdistinct := h.nodup hfits
  exact hij ((List.getElem?_inj (List.getElem?_eq_some_iff.mp hi).1 hdistinct).mp hj.symm).symm

/-! ## Trees that share no node

What is said of one arena needs only that this arena fits, and what is said of two arenas needs only
that there are not too many of them.
-/

/-- The tree at `root` has its nodes for itself. Its arena is number `i` of the forest. -/
structure Exclusive (f : Forest) (file : File) (root : Node) (i : Nat) : Prop where
  arena : f.arenas[i]? = some file.arena
  held : ∀ {path : List Nat} {n : Node}, root.at? path = some n →
    n.id.generation = file.arena.generation ∧ n.id.index.toNat < file.arena.size ∧
      file.arena.node? n.id = some n
  distinct : ∀ {path path' : List Nat} {m n : Node}, root.at? path = some m →
    root.at? path' = some n → m.id = n.id → path = path'
  elsewhere : ∀ {f' : Forest}, Later f f' → f'.next ≤ UInt32.size → ∀ {j : Nat} {b : Arena}, j ≠ i →
    f'.arenas[j]? = some b → ∀ {path : List Nat} {n : Node}, root.at? path = some n →
    b.node? n.id = none

/-- A tree in the newest arena, which owns it, is exclusive. -/
theorem exclusive_newest {next : Nat} {arenas : List Arena}
    (hreached : Reached ⟨next, arenas ++ [file.arena]⟩) {generation : UInt32}
    (h : file.OwnsTree generation) (hfits : file.arena.Fits)
    (hroot : file.root = some root) :
    Exclusive ⟨next, arenas ++ [file.arena]⟩ file root arenas.length := by
  have howns : file.arena.Owns [root] := by
    have hall := h.2 hfits
    rwa [hroot] at hall
  have hdistinct : (root.postorder.map Node.id).Nodup := by simpa using howns.distinct
  have hheld {path : List Nat} {n : Node} (hn : root.at? path = some n) :
      file.arena.node? n.id = some n :=
    howns.held n (by simpa using Tree.mem_postorder_of_at hn)
  have harena : (arenas ++ [file.arena])[arenas.length]? = some file.arena :=
    List.getElem?_concat_length
  refine ⟨harena, fun hn => ?_, fun hm hn heq => Tree.path_unique hdistinct hm hn heq, ?_⟩
  · exact ⟨(Arena.node?_eq_some.mp (hheld hn)).1, Arena.index_lt (hheld hn), hheld hn⟩
  · intro f' hlater hnext j b hij hb path n hn
    have hne := generation_unique (hreached.trans hlater) hnext hlater harena hb hij
    rw [Arena.node?, if_neg]
    rw [(Arena.node?_eq_some.mp (hheld hn)).1]
    exact hne

theorem exclusive_of_parse (hreached : Reached f) {text : List Char}
    (h : f.parse text = (.ok file, f')) (hfits : file.arena.Fits) :
    ∃ root, file.root = some root ∧ f'.Exclusive file root f.arenas.length ∧ Step f f' := by
  have hstep : Step f (f.parse text).2 := .parse f text
  obtain ⟨_, heq, howns, root, hroot⟩ | ⟨e, heq⟩ := f.parse_cases text
  · rw [heq] at h hstep
    obtain ⟨⟨⟩, rfl⟩ := Prod.mk.inj h
    exact ⟨root, hroot, exclusive_newest (hreached.tail hstep) howns hfits hroot, hstep⟩
  · cases h.symm.trans heq

theorem exclusive_of_fold (hreached : Reached f) {folded : File}
    (hroot : file.root = some root) (h : f.fold file = (.ok folded, f'))
    (hfits : folded.arena.Fits) :
    ∃ root', folded.root = some root' ∧ f'.Exclusive folded root' f.arenas.length ∧ Step f f' := by
  have hstep : Step f (f.fold file).2 := .fold f file
  obtain ⟨_, heq, howns, hfolded⟩ | ⟨e, heq⟩ := f.fold_cases file
  · rw [heq] at h hstep
    obtain ⟨⟨⟩, rfl⟩ := Prod.mk.inj h
    rw [hroot] at hfolded
    cases hroot' : folded.root with
    | none =>
      rw [hroot'] at hfolded
      cases hfolded
    | some root' =>
      exact ⟨root', rfl, exclusive_newest (hreached.tail hstep) howns hfits hroot', hstep⟩
  · cases h.symm.trans heq

/-- Exclusive trees of different arenas have no node in common. -/
theorem Exclusive.disjoint {file' : File} {root' : Node} {i' : Nat}
    (h : f.Exclusive file root i) (hlater : Later f f') (hnext : f'.next ≤ UInt32.size)
    (h' : f'.Exclusive file' root' i') (hne : i' ≠ i) {path path' : List Nat} {m n : Node}
    (hm : root.at? path = some m) (hn : root'.at? path' = some n) : m.id ≠ n.id := by
  intro heq
  have hnone := h.elsewhere hlater hnext hne h'.arena hm
  rw [heq, (h'.held hn).2.2] at hnone
  cases hnone

/-- A tree that is read has its nodes for itself. So has its folded copy, whenever that is made, and
the two have no node in common. Each tree is to fit into its arena, and the arenas made until then
into `2 ^ 32` generations. -/
theorem trees_own_their_nodes {f f₁ : Forest} {text : List Char} {file : File}
    (hreached : Reached f) (hparse : f.parse text = (.ok file, f₁)) (hfits : file.arena.Fits) :
    ∃ root i, file.root = some root ∧ f₁.Exclusive file root i ∧
      ∀ {f₂ f₃ : Forest} {folded : File}, Later f₁ f₂ → f₂.fold file = (.ok folded, f₃) →
        folded.arena.Fits → ∃ root' i', folded.root = some root' ∧ f₃.Exclusive folded root' i' ∧
          (f₃.next ≤ UInt32.size → ∀ {path path' : List Nat} {m n : Node}, root.at? path = some m →
            root'.at? path' = some n → m.id ≠ n.id) := by
  obtain ⟨root, hroot, hexclusive, hread⟩ := exclusive_of_parse hreached hparse hfits
  refine ⟨root, _, hroot, hexclusive, fun {f₂ f₃ folded} hlater hfold hfits' => ?_⟩
  obtain ⟨root', hroot', hexclusive', hstep⟩ :=
    exclusive_of_fold ((hreached.tail hread).trans hlater) hroot hfold hfits'
  refine ⟨root', _, hroot', hexclusive', fun hnext =>
    hexclusive.disjoint (hlater.tail hstep) hnext hexclusive' ?_⟩
  -- the arena of the first tree was there before that of the second
  have hthere : f.arenas.length < f₁.arenas.length :=
    (List.getElem?_eq_some_iff.mp hexclusive.arena).1
  exact Nat.ne_of_gt (Nat.lt_of_lt_of_le hthere hlater.length_le)

/-- Two variables in one declaration, each with a first value. -/
def twoVariables : List Char := "int a = 1 + 2, *b = a;".toList

theorem twoVariables_own_their_nodes :
    ∃ file f₁ folded f₃, empty.parse twoVariables = (.ok file, f₁) ∧
      f₁.fold file = (.ok folded, f₃) ∧
      ∃ root i root' i', file.root = some root ∧ f₁.Exclusive file root i ∧
        folded.root = some root' ∧ f₃.Exclusive folded root' i' ∧
        ∀ {path path' : List Nat} {m n : Node}, root.at? path = some m →
          root'.at? path' = some n → m.id ≠ n.id := by
  have hruns : (match empty.parse twoVariables with
      | (.ok file, f₁) => (match f₁.fold file with
        | (.ok folded, f₃) => decide (file.arena.size ≤ UInt32.size) &&
            (decide (folded.arena.size ≤ UInt32.size) && decide (f₃.next ≤ UInt32.size))
        | (.error _, _) => false)
      | (.error _, _) => false) = true := by decide +kernel
  split at hruns
  · next file f₁ hparse =>
    split at hruns
    · next folded f₃ hfold =>
      simp only [Bool.and_eq_true, decide_eq_true_eq] at hruns
      obtain ⟨hfits, hfits', hnext⟩ := hruns
      obtain ⟨root, i, hroot, hexclusive, hlater⟩ := trees_own_their_nodes .refl hparse hfits
      obtain ⟨root', i', hroot', hexclusive', hdisjoint⟩ := hlater .refl hfold hfits'
      exact ⟨file, f₁, folded, f₃, hparse, hfold, root, i, root', i', hroot, hexclusive, hroot',
        hexclusive', hdisjoint hnext⟩
    · cases hruns
  · cases hruns

end CSubset.Forest
