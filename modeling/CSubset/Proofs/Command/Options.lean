import CSubset.Command.Options
import Mathlib.Data.List.Perm.Basic

/-!
# What a command line says

A command line is read as a list of items: `-o` with the argument behind it, whatever that is, or an
argument by itself (`Item.ofArgs`). Each item changes the options or is refused (`Options.take`),
and what a list of items comes to can be told without going through it (`Says`). So it can be said
which command lines are accepted and what they mean, and that the order of the items matters only if
a directory is given twice or an argument is empty (`options_read_in_any_order`).
-/

namespace CSubset.Command

/-! ## Items -/

inductive Item where
  /-- `-o` and the argument behind it. -/
  | directory (dir : String)
  /-- `-o` with nothing behind it. -/
  | unfinished
  /-- Any other argument. -/
  | single (arg : String)
  deriving DecidableEq, Repr

namespace Item

/-- Read the arguments from left to right. -/
def ofArgs : List String → List Item
  | [] => []
  | "-o" :: rest =>
    match rest with
    | [] => [.unfinished]
    | dir :: rest => .directory dir :: ofArgs rest
  | arg :: rest => .single arg :: ofArgs rest

theorem ofArgs_single {arg : String} (h : arg ≠ "-o") (rest : List String) :
    ofArgs (arg :: rest) = .single arg :: ofArgs rest := by
  rw [ofArgs]
  exact h

/-- How an item is written. -/
def args : Item → List String
  | .directory dir => ["-o", dir]
  | .unfinished => ["-o"]
  | .single arg => [arg]

def directory? : Item → Option String
  | .directory dir => some dir
  | _ => none

/-- The argument, unless it begins with a dash. -/
def file? : Item → Option String
  | .single arg => if arg.toList.head? = some '-' then none else some arg
  | _ => none

def directories (items : List Item) : List String := items.filterMap directory?

def files (items : List Item) : List String := items.filterMap file?

section Lists

variable {dir arg : String} {items : List Item}

@[simp] theorem directories_directory :
    directories (.directory dir :: items) = dir :: directories items :=
  rfl

@[simp] theorem directories_single : directories (.single arg :: items) = directories items := rfl

@[simp] theorem files_directory : files (.directory dir :: items) = files items := rfl

theorem directories_perm {items' : List Item} (h : items.Perm items') :
    (directories items).Perm (directories items') :=
  h.filterMap directory?

theorem files_perm {items' : List Item} (h : items.Perm items') :
    (files items).Perm (files items') :=
  h.filterMap file?

theorem files_flag (h : arg.toList.head? = some '-') :
    files (.single arg :: items) = files items := by
  simp [files, file?, h]

theorem files_file (h : arg.toList.head? ≠ some '-') :
    files (.single arg :: items) = arg :: files items := by
  simp [files, file?, h]

end Lists

/-- The items of a command line are all of it. -/
theorem flatMap_args_ofArgs (as : List String) : (ofArgs as).flatMap args = as := by
  fun_induction ofArgs as with
  | case1 => rfl
  | case2 => rfl
  | case3 dir rest ih => simp [args, ih]
  | case4 arg rest hne ih => simp [args, ih]

end Item

open Item (directories files)

/-! ## One item -/

namespace Options

/-- What an item does to the options. -/
def take (o : Options) : Item → Except UsageError Options
  | .directory dir => .ok { o with outDir := dir }
  | .unfinished => .error .missingDirectory
  | .single arg =>
    if arg = "-S" then .ok { o with print := true }
    else if arg.toList.head? = some '-' then .error (.unknownFlag arg)
    else if o.source.isEmpty then .ok { o with source := arg }
    else .error (.unexpectedArgument arg)

/-- Whether there is a source is asked at the end. -/
def finish (o : Options) : Except UsageError Options :=
  if o.source.isEmpty then .error .noInput else .ok o

theorem finish_eq_ok_iff {o o' : Options} : o.finish = .ok o' ↔ o = o' ∧ o'.source ≠ "" := by
  unfold finish
  split
  next hempty =>
    refine ⟨nofun, ?_⟩
    rintro ⟨rfl, hne⟩
    exact absurd (String.isEmpty_iff.mp hempty) hne
  next hempty =>
    refine ⟨fun h => ?_, fun h => congrArg Except.ok h.1⟩
    obtain rfl := Except.ok.inj h
    exact ⟨rfl, fun h => hempty (String.isEmpty_iff.mpr h)⟩

/-- Reading the arguments is reading the items one after the other. -/
theorem parseFrom_eq (o : Options) (as : List String) :
    parseFrom o as = (Item.ofArgs as).foldlM take o >>= finish := by
  fun_induction parseFrom o as with
  | case1 o hempty => simp [Item.ofArgs, finish, hempty]
  | case2 o hempty => simp [Item.ofArgs, finish, hempty]
  | case3 => rfl
  | case4 o dir rest ih => exact ih
  | case5 o rest ih => exact ih
  | case6 o arg rest hne hprint hflag =>
    rw [Item.ofArgs_single hne, List.foldlM_cons, take, if_neg hprint, if_pos hflag]
    rfl
  | case7 o arg rest hne hprint hflag hempty ih =>
    rw [Item.ofArgs_single hne, List.foldlM_cons, take, if_neg hprint, if_neg hflag, if_pos hempty]
    exact ih
  | case8 o arg rest hne hprint hflag hempty =>
    rw [Item.ofArgs_single hne, List.foldlM_cons, take, if_neg hprint, if_neg hflag, if_neg hempty]
    rfl

end Options

/-! ## Many items -/

/-- What the items change the options `o` to. An argument without a dash is the source; all such
arguments in front of it are empty, and there are none behind it. -/
@[mk_iff]
structure Says (o : Options) (items : List Item) (o' : Options) : Prop where
  finished : Item.unfinished ∉ items
  flags : ∀ arg, .single arg ∈ items → arg.toList.head? = some '-' → arg = "-S"
  outDir : o'.outDir = (directories items).getLast?.getD o.outDir
  print : o'.print = true ↔ o.print = true ∨ .single "-S" ∈ items
  source : ∃ n, o.source :: files items = List.replicate n "" ++ [o'.source]

variable {o o' : Options} {items : List Item}

theorem exists_replicate_singleton {a s : String} :
    (∃ n, [a] = List.replicate n "" ++ [s]) ↔ s = a := by
  constructor
  · rintro ⟨n, h⟩
    cases n <;> simp_all [List.replicate_succ]
  · rintro rfl
    exact ⟨0, rfl⟩

theorem exists_replicate_cons {a b s : String} {l : List String} :
    (∃ n, a :: b :: l = List.replicate n "" ++ [s]) ↔ a = "" ∧
      ∃ n, b :: l = List.replicate n "" ++ [s] := by
  constructor
  · rintro ⟨n | n, h⟩
    · cases h
    · rw [List.replicate_succ, List.cons_append] at h
      obtain ⟨ha, h⟩ := List.cons.inj h
      exact ⟨ha, n, h⟩
  · rintro ⟨rfl, n, h⟩
    exact ⟨n + 1, by rw [h]; rfl⟩

theorem says_nil : Says o [] o' ↔ o' = o := by
  obtain ⟨dir, source, print⟩ := o
  obtain ⟨dir', source', print'⟩ := o'
  simp only [says_iff, files, directories, List.filterMap_nil, exists_replicate_singleton]
  simp [Bool.coe_iff_coe, and_comm]

theorem says_directory {dir : String} :
    Says o (.directory dir :: items) o' ↔ Says { o with outDir := dir } items o' := by
  simp [says_iff, List.getLast?_cons]

theorem says_print :
    Says o (.single "-S" :: items) o' ↔ Says { o with print := true } items o' := by
  have hfiles : files (.single "-S" :: items) = files items := Item.files_flag rfl
  simp [says_iff, hfiles]

theorem says_file {arg : String} (harg : arg.toList.head? ≠ some '-') :
    Says o (.single arg :: items) o' ↔ o.source = "" ∧ Says { o with source := arg } items o' := by
  have hne : "-S" ≠ arg := by
    rintro rfl
    exact harg rfl
  simp only [says_iff, List.mem_cons, reduceCtorEq, false_or, Item.single.injEq, forall_eq_or_imp,
    harg, IsEmpty.forall_iff, true_and, Item.directories_single, hne, Item.files_file harg,
    exists_replicate_cons]
  tauto

/-- A list of items says what its first item says, and then what the others do. -/
theorem says_cons {item : Item} :
    Says o (item :: items) o' ↔ ∃ o₁, o.take item = .ok o₁ ∧ Says o₁ items o' := by
  cases item with
  | directory dir => simp [says_directory, Options.take]
  | unfinished => simp [says_iff, Options.take]
  | single arg =>
    by_cases hprint : arg = "-S"
    · subst hprint
      simp [says_print, Options.take]
    · by_cases hflag : arg.toList.head? = some '-'
      · have hnot : ¬Says o (.single arg :: items) o' :=
          fun h => hprint (h.flags arg List.mem_cons_self hflag)
        simp [hnot, Options.take, hprint, hflag]
      · rw [says_file hflag]
        by_cases hsource : o.source = ""
        · simp [Options.take, hprint, hflag, hsource]
        · simp [Options.take, hprint, hflag, hsource]

/-- Taking the items one after the other leaves the options that they say. -/
theorem foldlM_take_eq_ok_iff : items.foldlM Options.take o = .ok o' ↔ Says o items o' := by
  induction items generalizing o with
  | nil =>
    rw [says_nil]
    exact ⟨fun h => (Except.ok.inj h).symm, fun h => congrArg Except.ok h.symm⟩
  | cons item items ih =>
    rw [says_cons, List.foldlM_cons]
    cases o.take item with
    | error e => exact ⟨nofun, nofun⟩
    | ok o₁ => exact ih.trans (by simp)

/-! ## Whole command lines -/

/-- These items are accepted, with this source: each `-o` has its directory, the only flag is `-S`,
and of the other arguments the last one is the source and the only one that is not empty. -/
structure Acceptable (items : List Item) (source : String) : Prop where
  finished : Item.unfinished ∉ items
  flags : ∀ arg, .single arg ∈ items → arg.toList.head? = some '-' → arg = "-S"
  nonempty : source ≠ ""
  remaining : ∃ n, files items = List.replicate n "" ++ [source]

/-- What the items say to begin with. -/
theorem says_start_iff :
    Says ⟨".", "", false⟩ items o ∧ o.source ≠ "" ↔
      Acceptable items o.source ∧ (o.print = true ↔ .single "-S" ∈ items) ∧
        o.outDir = (directories items).getLast?.getD "." := by
  constructor
  · rintro ⟨h, hne⟩
    refine ⟨⟨h.finished, h.flags, hne, ?_⟩, by simpa using h.print, h.outDir⟩
    -- the source is not empty, so it is one of the arguments
    obtain ⟨n | n, hfiles⟩ := h.source
    · exact absurd (List.head_eq_of_cons_eq hfiles).symm hne
    · rw [List.replicate_succ, List.cons_append] at hfiles
      exact ⟨n, (List.cons.inj hfiles).2⟩
  · rintro ⟨h, hprint, hdir⟩
    obtain ⟨n, hfiles⟩ := h.remaining
    exact ⟨⟨h.finished, h.flags, hdir, by simpa using hprint, n + 1, by rw [hfiles]; rfl⟩,
      h.nonempty⟩

theorem parse_eq_ok_iff {args : List String} :
    Options.parse args = .ok o ↔
      Acceptable (Item.ofArgs args) o.source ∧ (o.print = true ↔ .single "-S" ∈ Item.ofArgs args) ∧
        o.outDir = (directories (Item.ofArgs args)).getLast?.getD "." := by
  rw [Options.parse, Options.parseFrom_eq, ← says_start_iff, ← foldlM_take_eq_ok_iff]
  cases (Item.ofArgs args).foldlM Options.take ⟨".", "", false⟩ with
  | error e => exact ⟨nofun, nofun⟩
  | ok o₁ => exact Options.finish_eq_ok_iff.trans (by simp)

/-! ## Items in another order -/

theorem eq_of_perm_of_length_le {l l' : List String} (h : l.Perm l') (hl : l.length ≤ 1) :
    l = l' := by
  cases l with
  | nil => exact (List.nil_perm.mp h).symm
  | cons a l =>
    obtain rfl : l = [] := List.length_eq_zero_iff.mp (Nat.le_zero.mp (Nat.le_of_succ_le_succ hl))
    exact List.singleton_perm.mp h

theorem Acceptable.perm {items' : List Item} {source : String} (h : Acceptable items source)
    (hperm : items.Perm items') (hempty : "" ∉ files items) : Acceptable items' source := by
  obtain ⟨n, hfiles⟩ := h.remaining
  -- no argument is empty, so the source is the only one
  obtain rfl : n = 0 := by
    cases n with
    | zero => rfl
    | succ n => simp [hfiles] at hempty
  have hsame : files items = files items' :=
    eq_of_perm_of_length_le (Item.files_perm hperm) (by simp [hfiles])
  exact ⟨mt hperm.mem_iff.mpr h.finished, fun arg harg => h.flags arg (hperm.mem_iff.mpr harg),
    h.nonempty, 0, hsame ▸ hfiles⟩

/-- If there is at most one directory and no argument is empty, the order of the items does not
matter. -/
theorem parse_eq_ok_of_perm {args args' : List String}
    (hperm : (Item.ofArgs args).Perm (Item.ofArgs args'))
    (hdirs : (directories (Item.ofArgs args)).length ≤ 1) (hempty : "" ∉ files (Item.ofArgs args))
    (h : Options.parse args = .ok o) : Options.parse args' = .ok o := by
  obtain ⟨haccept, hprint, hdir⟩ := parse_eq_ok_iff.mp h
  have hsame : directories (Item.ofArgs args) = directories (Item.ofArgs args') :=
    eq_of_perm_of_length_le (Item.directories_perm hperm) hdirs
  exact parse_eq_ok_iff.mpr ⟨haccept.perm hperm hempty, hprint.trans hperm.mem_iff, hsame ▸ hdir⟩

theorem toOption_eq {ε α : Type} {x y : Except ε α} (h : ∀ a, x = .ok a ↔ y = .ok a) :
    x.toOption = y.toOption := by
  cases x with
  | ok a => rw [(h a).mp rfl]
  | error e =>
    cases y with
    | ok a => cases (h a).mpr rfl
    | error e' => rfl

/-- A command line is accepted exactly if each `-o` has an argument behind it, every other argument
with a dash is `-S`, and of the remaining ones exactly one is not empty and no empty one comes
behind it. That one is the source; the folded module is printed if there is a `-S`, and the last
`-o` gives the directory. So the order of the items does not matter, unless there are several
directories or an argument is empty. -/
theorem options_read_in_any_order (args : List String) :
    (Item.ofArgs args).flatMap Item.args = args ∧
    ((∃ o, Options.parse args = .ok o) ↔ ∃ source, Acceptable (Item.ofArgs args) source) ∧
    (∀ o, Options.parse args = .ok o ↔
      Acceptable (Item.ofArgs args) o.source ∧ (o.print = true ↔ .single "-S" ∈ Item.ofArgs args) ∧
        o.outDir = (directories (Item.ofArgs args)).getLast?.getD ".") ∧
    ∀ args', (Item.ofArgs args).Perm (Item.ofArgs args') →
      (directories (Item.ofArgs args)).length ≤ 1 →
      "" ∉ files (Item.ofArgs args) →
        (Options.parse args').toOption = (Options.parse args).toOption := by
  refine ⟨Item.flatMap_args_ofArgs args, ⟨?_, ?_⟩, fun o => parse_eq_ok_iff, ?_⟩
  · rintro ⟨o, h⟩
    exact ⟨o.source, (parse_eq_ok_iff.mp h).1⟩
  · rintro ⟨source, h⟩
    refine ⟨⟨(directories (Item.ofArgs args)).getLast?.getD ".", source,
      decide (.single "-S" ∈ Item.ofArgs args)⟩, ?_⟩
    exact parse_eq_ok_iff.mpr ⟨h, decide_eq_true_iff, rfl⟩
  · intro args' hperm hdirs hempty
    refine toOption_eq fun o => ⟨?_, parse_eq_ok_of_perm hperm hdirs hempty⟩
    refine parse_eq_ok_of_perm hperm.symm ?_ ?_
    · rwa [← (Item.directories_perm hperm).length_eq]
    · rwa [← (Item.files_perm hperm).mem_iff]

/-- A directory that looks like an option, in front of the source or behind it. -/
theorem dashed_directory_read :
    (Item.ofArgs ["-o", "-o", "a.c", "-S"]).Perm (Item.ofArgs ["-S", "a.c", "-o", "-o"]) ∧
    directories (Item.ofArgs ["-o", "-o", "a.c", "-S"]) = ["-o"] ∧
      files (Item.ofArgs ["-o", "-o", "a.c", "-S"]) = ["a.c"] ∧
    Acceptable (Item.ofArgs ["-o", "-o", "a.c", "-S"]) "a.c" ∧
    Options.parse ["-o", "-o", "a.c", "-S"] = .ok ⟨"-o", "a.c", true⟩ ∧
    (Options.parse ["-S", "a.c", "-o", "-o"]).toOption = some ⟨"-o", "a.c", true⟩ := by
  have hparse : Options.parse ["-o", "-o", "a.c", "-S"] = .ok ⟨"-o", "a.c", true⟩ := by rfl
  have hperm : (Item.ofArgs ["-o", "-o", "a.c", "-S"]).Perm
      (Item.ofArgs ["-S", "a.c", "-o", "-o"]) := by
    decide
  have hdirs : directories (Item.ofArgs ["-o", "-o", "a.c", "-S"]) = ["-o"] := by decide
  have hfiles : files (Item.ofArgs ["-o", "-o", "a.c", "-S"]) = ["a.c"] := by decide
  obtain ⟨-, -, haccept, hreorder⟩ := options_read_in_any_order ["-o", "-o", "a.c", "-S"]
  refine ⟨hperm, hdirs, hfiles, ((haccept _).mp hparse).1, hparse, ?_⟩
  rw [hreorder _ hperm (by rw [hdirs]; decide) (by rw [hfiles]; decide), hparse]
  rfl

end CSubset.Command
