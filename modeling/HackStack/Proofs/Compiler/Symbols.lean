import HackStack.Proofs.Compiler.Image
import Mathlib.Data.List.Nodup
import Mathlib.Data.List.Perm.Basic

/-! The labels of an output. The names of functions, the symbols of labels and the symbols that the
generator makes share one flat space. Counters keep the generator's own symbols apart from each
other; names that a program chooses may still meet any of them, and it is said exactly which. -/
namespace HackStack
open Assembly

namespace Site

def functions : Site → List String
  | .compiled _ (.function name _) => [name]
  | _ => []

def localLabels : Site → List (Scope × String)
  | .compiled generator (.label name) => [(generator.scope, name)]
  | _ => []

/-- The state in which the call at the place is compiled. -/
def calls : Site → List Generator
  | .compiled generator (.call ..) => [generator]
  | _ => []

def comparisons : Site → List Nat
  | .compiled generator (.arithmetic mnemonic) =>
    match Operation.ofMnemonic? mnemonic with
    | some .eq | some .gt | some .lt => [generator.comparisons]
    | _ => []
  | _ => []

def endings : Site → List String
  | .loop label => [label]
  | _ => []

end Site

def comparisonSymbols (count : Nat) : List String := ["TRUE_" ++ count.repr, "END_" ++ count.repr]

def labelSymbol (label : Scope × String) : String := label.1.resolve label.2

def labelSymbols (sites : List Site) : List String :=
  (sites.flatMap Site.localLabels).map labelSymbol

def returnSymbols (sites : List Site) : List String :=
  (sites.flatMap Site.calls).map Generator.returnSymbol

def branchSymbols (sites : List Site) : List String :=
  (sites.flatMap Site.comparisons).flatMap comparisonSymbols

/-- The symbols that the generator makes itself: behind calls, in comparisons and for loops. -/
def ownSymbols (sites : List Site) : List String :=
  returnSymbols sites ++ (branchSymbols sites ++ sites.flatMap Site.endings)

def declaredSymbols (sites : List Site) : List String :=
  sites.flatMap Site.functions ++ (labelSymbols sites ++ ownSymbols sites)

theorem declaredSymbols_cons (site : Site) (rest : List Site) :
    (declaredSymbols (site :: rest)).Perm (declaredSymbols [site] ++ declaredSymbols rest) := by
  apply List.perm_iff_count.mpr
  intro name
  simp only [declaredSymbols, ownSymbols, labelSymbols, returnSymbols, branchSymbols,
    List.flatMap_cons, List.flatMap_nil, List.append_nil, List.map_append, List.flatMap_append,
    List.count_append]
  omega

theorem labels_pushZeros (count : Nat) :
    labels (List.replicate count Code.pushZero).flatten = [] := by
  induction count with
  | zero => rfl
  | succ count ih => rw [List.replicate_succ, List.flatten_cons, labels_append, ih]; rfl

theorem Site.labels_code {site : Site} (accepted : site.Accepted) :
    labels site.code = declaredSymbols [site] := by
  cases site with
  | setStack => rfl
  | loop => rfl
  | compiled generator command =>
    obtain ⟨code, generated⟩ := accepted
    simp only [Site.code, generated]
    cases command with
    | arithmetic mnemonic =>
      cases found : Operation.ofMnemonic? mnemonic with
      | none => simp [Generator.code, found] at generated
      | some operation =>
        simp only [Generator.code, found, Except.ok.injEq] at generated
        subst generated
        have numbers : declaredSymbols [.compiled generator (.arithmetic mnemonic)] =
            (Site.comparisons (.compiled generator (.arithmetic mnemonic))).flatMap
              comparisonSymbols := by
          simp [declaredSymbols, ownSymbols, labelSymbols, returnSymbols, branchSymbols,
            Site.functions, Site.localLabels, Site.calls, Site.endings]
        simp only [numbers, Site.comparisons, found]
        cases operation <;> rfl
    | push segment index =>
      cases segment with
      | constant =>
        obtain ⟨constant, -, result⟩ := bind_ok generated
        cases result
        rfl
      | locals | static | arguments | this | that | pointer | temp =>
        obtain ⟨place, -, result⟩ := bind_ok generated
        cases result
        cases place <;> rfl
    | pop segment index =>
      obtain ⟨place, -, result⟩ := bind_ok generated
      cases result
      cases place <;> rfl
    | label | goto | ifGoto | ret =>
      cases generated
      rfl
    | function name locals =>
      cases generated
      exact congrArg (name :: ·) (labels_pushZeros locals.toNat)
    | call name arguments =>
      obtain ⟨count, -, result⟩ := bind_ok generated
      cases result
      rfl

/-- An output declares the symbols of its families, each as often as it is in them. -/
theorem perm_declaredSymbols {sites : List Site} (accepted : ∀ site ∈ sites, site.Accepted) :
    (labels (codeOf sites)).Perm (declaredSymbols sites) := by
  induction sites with
  | nil => rfl
  | cons site rest ih =>
    rw [codeOf_cons, labels_append, Site.labels_code (accepted site List.mem_cons_self)]
    refine List.Perm.trans ?_ (declaredSymbols_cons site rest).symm
    exact (ih fun other member => accepted other (List.mem_cons_of_mem _ member)).append_left _

/-- A family of numbers that a counter of the generator hands out one after the other. -/
structure Numbered (counter : Generator → Nat) (family : Site → List Nat) : Prop where
  advance : ∀ generator command, ∃ count,
    counter (generator.advance command) = counter generator + count ∧
      family (.compiled generator command) = List.range' (counter generator) count
  enter : ∀ generator name, counter (Generator.enter generator name) = counter generator
  start : ∀ bootstrap, (if bootstrap then startSites else []).flatMap family =
    List.range' 0 (counter (startState bootstrap))
  finish : family (.loop Code.endLabel) = []

namespace Numbered

variable {counter : Generator → Nat} {family : Site → List Nat}

theorem sites (numbered : Numbered counter family) (generator : Generator)
    (commands : List Command) : ∃ count,
      counter (generator.after commands) = counter generator + count ∧
        (generator.sites commands).flatMap family = List.range' (counter generator) count := by
  induction commands generalizing generator with
  | nil => exact ⟨0, rfl, rfl⟩
  | cons command rest ih =>
    obtain ⟨first, moved, one⟩ := numbered.advance generator command
    obtain ⟨second, after, others⟩ := ih (generator.advance command)
    refine ⟨first + second, ?_, ?_⟩
    · rw [Generator.after, List.foldl_cons, ← Generator.after, after, moved, Nat.add_assoc]
    · rw [Generator.sites, List.flatMap_cons, one, others, moved, List.range'_append_1]

theorem moduleSites (numbered : Numbered counter family) (generator : Generator)
    (modules : List Module) : ∃ count,
      (generator.moduleSites modules).flatMap family =
        List.range' (counter generator) count := by
  induction modules generalizing generator with
  | nil => exact ⟨0, rfl⟩
  | cons module rest ih =>
    obtain ⟨first, moved, one⟩ :=
      numbered.sites (generator.enter module.name) module.commands
    obtain ⟨second, others⟩ :=
      ih ((generator.enter module.name).after module.commands)
    rw [numbered.enter] at moved one
    refine ⟨first + second, ?_⟩
    rw [Generator.moduleSites, List.flatMap_append, one, others, moved, List.range'_append_1]

/-- No number is handed out twice in a run. -/
theorem nodup (numbered : Numbered counter family) (bootstrap : Bool) (modules : List Module) :
    ((listing bootstrap modules).flatMap family).Nodup := by
  obtain ⟨count, numbers⟩ := numbered.moduleSites (startState bootstrap) modules
  have all : (listing bootstrap modules).flatMap family =
      List.range' 0 (counter (startState bootstrap) + count) := by
    rw [listing, List.flatMap_append, List.flatMap_append, numbered.start, numbers,
      List.flatMap_singleton, numbered.finish, List.append_nil]
    have joined := @List.range'_append_1 0 (counter (startState bootstrap)) count
    rwa [Nat.zero_add] at joined
  rw [all]
  exact List.nodup_range'

end Numbered

theorem numbered_comparisons : Numbered Generator.comparisons Site.comparisons where
  advance generator command := by
    cases command with
    | arithmetic mnemonic =>
      simp only [Generator.advance, Site.comparisons]
      cases Operation.ofMnemonic? mnemonic with
      | none => exact ⟨0, rfl, rfl⟩
      | some operation =>
        cases operation with
        | eq | gt | lt => exact ⟨1, rfl, rfl⟩
        | _ => exact ⟨0, rfl, rfl⟩
    | _ => exact ⟨0, rfl, rfl⟩
  enter _ _ := rfl
  start bootstrap := by cases bootstrap <;> rfl
  finish := rfl

theorem numbered_calls : Numbered Generator.calls fun site => site.calls.map Generator.calls where
  advance generator command := by
    cases command with
    | call => exact ⟨1, rfl, rfl⟩
    | arithmetic mnemonic =>
      refine ⟨0, ?_, rfl⟩
      simp only [Generator.advance]
      split <;> rfl
    | _ => exact ⟨0, rfl, rfl⟩
  enter _ _ := rfl
  start bootstrap := by cases bootstrap <;> rfl
  finish := rfl

theorem repr_injective {first second : Nat} (same : first.repr = second.repr) :
    first = second := by
  have digits := congrArg (fun text => Nat.ofDigitChars 10 text.toList 0) same
  simpa using digits

/-- What stands behind the last occurrence of a character is determined by the whole text. -/
theorem eq_of_append_cons {before other : List Char} {mark : Char} {after rest : List Char}
    (same : before ++ mark :: after = other ++ mark :: rest) (last : mark ∉ after)
    (final : mark ∉ rest) : after = rest := by
  rcases List.append_eq_append_iff.mp same with ⟨middle, -, tail⟩ | ⟨middle, -, tail⟩
  · cases middle with
    | nil => exact (List.cons.inj tail).2
    | cons _ _ => exact absurd ((List.cons.inj tail).2 ▸ by simp) last
  · cases middle with
    | nil => exact (List.cons.inj tail).2.symm
    | cons _ _ => exact absurd ((List.cons.inj tail).2 ▸ by simp) final

theorem calls_of_returnSymbol {first second : Generator}
    (same : first.returnSymbol = second.returnSymbol) : first.calls = second.calls := by
  have spelled := congrArg String.toList same
  simp only [Generator.returnSymbol, String.toList_append] at spelled
  apply repr_injective
  apply String.toList_inj.mp
  refine @eq_of_append_cons (first.module.toList ++ "$ret".toList)
    (second.module.toList ++ "$ret".toList) '.' _ _ ?_ (not_mem_repr (by decide) _)
    (not_mem_repr (by decide) _)
  simpa using spelled

/-- No two calls of a run have the same symbol behind them, whatever the modules are called. -/
theorem nodup_returnSymbols (bootstrap : Bool) (modules : List Module) :
    (returnSymbols (listing bootstrap modules)).Nodup := by
  have numbers := numbered_calls.nodup bootstrap modules
  rw [← List.map_flatMap] at numbers
  refine List.Nodup.map_on (fun first here second there same => ?_) (List.Nodup.of_map _ numbers)
  exact List.inj_on_of_nodup_map numbers here there (calls_of_returnSymbol same)

theorem eq_of_mem_comparisonSymbols {first second : Nat} {name : String}
    (here : name ∈ comparisonSymbols first) (there : name ∈ comparisonSymbols second) :
    first = second := by
  have numbered : ∀ {word : String}, word ++ first.repr = word ++ second.repr →
      first = second := by
    intro word same
    have spelled := congrArg String.toList same
    simp only [String.toList_append] at spelled
    exact repr_injective (String.toList_inj.mp (List.append_cancel_left spelled))
  simp only [comparisonSymbols, List.mem_cons, List.not_mem_nil, or_false] at here there
  rcases here with rfl | rfl <;> rcases there with same | same
  · exact numbered same
  · have spelled := congrArg String.toList same
    simp at spelled
  · have spelled := congrArg String.toList same
    simp at spelled
  · exact numbered same

theorem nodup_comparisonSymbols (count : Nat) : (comparisonSymbols count).Nodup := by
  refine List.nodup_cons.mpr ⟨fun member => ?_, List.nodup_singleton _⟩
  have spelled := congrArg String.toList (List.mem_singleton.mp member)
  simp at spelled

theorem nodup_branchSymbols (bootstrap : Bool) (modules : List Module) :
    (branchSymbols (listing bootstrap modules)).Nodup := by
  refine List.nodup_flatMap.mpr ⟨fun count _ => nodup_comparisonSymbols count, ?_⟩
  refine (numbered_comparisons.nodup bootstrap modules).imp fun different => ?_
  exact List.disjoint_left.mpr fun name here there =>
    different (eq_of_mem_comparisonSymbols here there)

theorem endings_listing (bootstrap : Bool) (modules : List Module) :
    (listing bootstrap modules).flatMap Site.endings =
      if bootstrap then [Code.haltLabel, Code.endLabel] else [Code.endLabel] := by
  have commands : ∀ (generator : Generator) (commands : List Command),
      (generator.sites commands).flatMap Site.endings = [] := by
    intro generator commands
    induction commands generalizing generator with
    | nil => rfl
    | cons command rest ih => exact ih (generator.advance command)
  have inside : ∀ generator : Generator,
      (generator.moduleSites modules).flatMap Site.endings = [] := by
    induction modules with
    | nil => exact fun _ => rfl
    | cons module rest ih =>
      intro generator
      rw [Generator.moduleSites, List.flatMap_append, commands, ih, List.append_nil]
  rw [listing, List.flatMap_append, List.flatMap_append, inside]
  cases bootstrap <;> rfl

def Marked (marks : List Char) (name : String) : Prop := ∃ mark ∈ marks, mark ∈ name.toList

instance (marks : List Char) (name : String) : Decidable (Marked marks name) :=
  decidable_of_iff (marks.any fun mark => name.toList.contains mark) (by simp [Marked])

theorem disjoint_of_marked (marks : List Char) {first second : List String}
    (marked : ∀ name ∈ first, Marked marks name) (plain : ∀ name ∈ second, ¬ Marked marks name) :
    first.Disjoint second :=
  List.disjoint_left.mpr fun name here there => plain name there (marked name here)

theorem marked_resolve (scope : Scope) (name : String) :
    Marked ['$', ':'] (scope.resolve name) := by
  cases scope with
  | function => exact ⟨'$', by simp, by simp [Scope.resolve]⟩
  | module => exact ⟨':', by simp, by simp [Scope.resolve]⟩

theorem marked_labelSymbols {sites : List Site} {name : String}
    (member : name ∈ labelSymbols sites) : Marked ['$', ':'] name := by
  obtain ⟨label, -, rfl⟩ := List.mem_map.mp member
  exact marked_resolve label.1 label.2

theorem marked_returnSymbol (generator : Generator) :
    Marked ['$'] generator.returnSymbol ∧ Marked ['.'] generator.returnSymbol :=
  ⟨⟨'$', by simp, by simp [Generator.returnSymbol]⟩,
    ⟨'.', by simp, by simp [Generator.returnSymbol]⟩⟩

theorem marked_returnSymbols {sites : List Site} {name : String}
    (member : name ∈ returnSymbols sites) : Marked ['$'] name ∧ Marked ['.'] name := by
  obtain ⟨call, -, rfl⟩ := List.mem_map.mp member
  exact marked_returnSymbol call

theorem marked_staticSymbol (generator : Generator) (index : Word) :
    Marked ['.'] (generator.staticSymbol index) :=
  ⟨'.', by simp, by simp [Generator.staticSymbol]⟩

theorem marked_statics {sites : List Site} {name : String} (member : name ∈ statics sites) :
    Marked ['.'] name := by
  obtain ⟨site, -, found⟩ := List.mem_filterMap.mp member
  unfold Site.static? at found
  split at found
  · cases found
    exact marked_staticSymbol ..
  · cases found
    exact marked_staticSymbol ..
  · cases found

theorem marked_comparisonSymbols {count : Nat} {name : String}
    (member : name ∈ comparisonSymbols count) :
    Marked ['_'] name ∧ ¬ Marked ['$', ':', '.'] name := by
  have plain : ∀ word : String, ¬ Marked ['$', ':', '.'] word →
      ¬ Marked ['$', ':', '.'] (word ++ count.repr) := by
    rintro word clear ⟨mark, among, inside⟩
    rw [String.toList_append] at inside
    rcases List.mem_append.mp inside with letter | digit
    · exact clear ⟨mark, among, letter⟩
    · refine not_mem_repr ?_ count digit
      simp only [List.mem_cons, List.not_mem_nil, or_false] at among
      rcases among with rfl | rfl | rfl <;> rfl
  simp only [comparisonSymbols, List.mem_cons, List.not_mem_nil, or_false] at member
  rcases member with rfl | rfl
  · exact ⟨⟨'_', by simp, by simp⟩, plain "TRUE_" (by decide)⟩
  · exact ⟨⟨'_', by simp, by simp⟩, plain "END_" (by decide)⟩

theorem marked_branchSymbols {sites : List Site} {name : String}
    (member : name ∈ branchSymbols sites) :
    Marked ['_'] name ∧ ¬ Marked ['$', ':', '.'] name := by
  obtain ⟨count, -, found⟩ := List.mem_flatMap.mp member
  exact marked_comparisonSymbols found

theorem marked_loops : ∀ name ∈ [Code.haltLabel, Code.endLabel],
    Marked ['$'] name ∧ ¬ Marked ['.', '_'] name := by
  decide

theorem marked_endings {bootstrap : Bool} {modules : List Module} {name : String}
    (member : name ∈ (listing bootstrap modules).flatMap Site.endings) :
    Marked ['$'] name ∧ ¬ Marked ['.', '_'] name := by
  rw [endings_listing] at member
  have both : name ∈ [Code.haltLabel, Code.endLabel] := by
    cases bootstrap with
    | true => exact member
    | false => exact List.mem_cons_of_mem _ member
  exact marked_loops name both

theorem not_marked_predefined {name : String} (member : name ∈ predefined.map Prod.fst) :
    ¬ Marked ['$', ':', '_', '.'] name := by
  revert name
  decide

theorem Marked.mono {marks more : List Char} {name : String} (marked : Marked marks name)
    (within : marks ⊆ more) : Marked more name := by
  obtain ⟨mark, among, inside⟩ := marked
  exact ⟨mark, within among, inside⟩

/-- Two words with a dollar between them are the symbol of a label in only one way. -/
theorem labelSymbol_eq_iff {label : Scope × String} {first second : String}
    (head : ¬ Marked ['$', ':'] first) (tail : ¬ Marked ['$', ':'] second) :
    labelSymbol label = first ++ "$" ++ second ↔ label = (.function first, second) := by
  obtain ⟨scope, name⟩ := label
  have apart : ∀ {mark : Char} {before : List Char}, mark ∈ ['$', ':'] →
      first.toList ++ '$' :: second.toList = before ++ mark :: name.toList →
      first.toList = before ∧ '$' = mark ∧ second.toList = name.toList := by
    intro mark before among same
    exact (List.append_cons_inj_of_notMem (fun inside => head ⟨mark, among, inside⟩)
      (fun inside => tail ⟨mark, among, inside⟩)).mp same
  constructor
  · intro same
    have spelled := congrArg String.toList same.symm
    cases scope with
    | function function =>
      obtain ⟨before, -, behind⟩ := @apart '$' function.toList (by simp)
        (by simpa [labelSymbol, Scope.resolve] using spelled)
      rw [String.toList_inj.mp before, String.toList_inj.mp behind]
    | module module =>
      obtain ⟨-, mark, -⟩ := @apart ':' module.toList (by simp)
        (by simpa [labelSymbol, Scope.resolve] using spelled)
      exact absurd mark (by decide)
  · rintro ⟨⟩
    rfl

theorem mem_labelSymbols_iff {sites : List Site} {first second : String}
    (head : ¬ Marked ['$', ':'] first) (tail : ¬ Marked ['$', ':'] second) :
    first ++ "$" ++ second ∈ labelSymbols sites ↔
      (.function first, second) ∈ sites.flatMap Site.localLabels := by
  rw [labelSymbols, List.mem_map]
  constructor
  · rintro ⟨label, member, same⟩
    rwa [(labelSymbol_eq_iff head tail).mp same] at member
  · exact fun member => ⟨_, member, rfl⟩

/-- A label meets a loop only as `VM$END` or, where there is a start, as `VM$HALT`. -/
theorem disjoint_endings_iff (bootstrap : Bool) (modules : List Module) :
    (labelSymbols (listing bootstrap modules)).Disjoint
        ((listing bootstrap modules).flatMap Site.endings) ↔
      (.function "VM", "END") ∉ (listing bootstrap modules).flatMap Site.localLabels ∧
        (bootstrap = true →
          (.function "VM", "HALT") ∉ (listing bootstrap modules).flatMap Site.localLabels) := by
  have plain : ∀ word ∈ ["VM", "END", "HALT"], ¬ Marked ['$', ':'] word := by decide
  have last := @mem_labelSymbols_iff (listing bootstrap modules) "VM" "END" (plain _ (by simp))
    (plain _ (by simp))
  have halt := @mem_labelSymbols_iff (listing bootstrap modules) "VM" "HALT" (plain _ (by simp))
    (plain _ (by simp))
  rw [endings_listing, ← last, ← halt, List.disjoint_comm]
  cases bootstrap with
  | true =>
    rw [if_pos rfl, List.disjoint_cons_left, List.singleton_disjoint, and_comm]
    exact and_congr_right fun _ => ⟨fun absent _ => absent, fun absent => absent rfl⟩
  | false =>
    rw [if_neg (by decide), List.singleton_disjoint]
    exact (and_iff_left nofun).symm

section
variable (bootstrap : Bool) (modules : List Module)

/-- The generator's own symbols are pairwise distinct. -/
theorem nodup_ownSymbols : (ownSymbols (listing bootstrap modules)).Nodup := by
  have endings : ((listing bootstrap modules).flatMap Site.endings).Nodup := by
    rw [endings_listing]
    cases bootstrap <;> decide
  refine List.nodup_append'.mpr ⟨nodup_returnSymbols bootstrap modules,
    List.nodup_append'.mpr ⟨nodup_branchSymbols bootstrap modules, endings, ?_⟩, ?_⟩
  · exact disjoint_of_marked ['_'] (fun _ member => (marked_branchSymbols member).1)
      fun _ member marked => (marked_endings member).2 (marked.mono (by simp))
  · refine List.disjoint_append_right.mpr ⟨?_, ?_⟩
    · exact disjoint_of_marked ['$'] (fun _ member => (marked_returnSymbols member).1)
        fun _ member marked => (marked_branchSymbols member).2 (marked.mono (by simp))
    · exact disjoint_of_marked ['.'] (fun _ member => (marked_returnSymbols member).2)
        fun _ member marked => (marked_endings member).2 (marked.mono (by simp))

theorem disjoint_predefined :
    (labelSymbols (listing bootstrap modules) ++ ownSymbols (listing bootstrap modules)).Disjoint
      (predefined.map Prod.fst) := by
  refine disjoint_of_marked ['$', ':', '_', '.'] (fun name member => ?_)
    (fun _ => not_marked_predefined)
  rcases List.mem_append.mp member with label | own
  · exact (marked_labelSymbols label).mono (by simp)
  · rcases List.mem_append.mp own with return_ | own
    · exact (marked_returnSymbols return_).1.mono (by simp)
    · rcases List.mem_append.mp own with branch | ending
      · exact (marked_branchSymbols branch).1.mono (by simp)
      · exact (marked_endings ending).1.mono (by simp)

theorem disjoint_statics :
    (branchSymbols (listing bootstrap modules) ++
      (listing bootstrap modules).flatMap Site.endings).Disjoint
      (statics (listing bootstrap modules)) := by
  refine List.disjoint_comm.mp
    (disjoint_of_marked ['.'] (fun _ => marked_statics) fun name member marked => ?_)
  rcases List.mem_append.mp member with branch | ending
  · exact (marked_branchSymbols branch).2 (marked.mono (by simp))
  · exact (marked_endings ending).2 (marked.mono (by simp))

end

/-- The names that a program chooses stay clear of the other symbols: functions of all of them;
labels of each other, of the two loops, and of the symbols behind calls and of statics. -/
@[mk_iff]
structure Apart (bootstrap : Bool) (sites : List Site) : Prop where
  functions : ∀ name ∈ sites.flatMap Site.functions,
    name ∉ predefined.map Prod.fst ++ (statics sites ++ (labelSymbols sites ++ ownSymbols sites))
  labels : ∀ first ∈ sites.flatMap Site.localLabels, ∀ second ∈ sites.flatMap Site.localLabels,
    labelSymbol first = labelSymbol second → first = second
  endLabel : (.function "VM", "END") ∉ sites.flatMap Site.localLabels
  haltLabel : bootstrap = true → (.function "VM", "HALT") ∉ sites.flatMap Site.localLabels
  returns : ∀ name ∈ labelSymbols sites, name ∉ returnSymbols sites
  statics : ∀ name ∈ labelSymbols sites ++ returnSymbols sites, name ∉ statics sites

instance (bootstrap : Bool) (sites : List Site) : Decidable (Apart bootstrap sites) :=
  decidable_of_iff _ (apart_iff bootstrap sites).symm

theorem mem_labels_codeOf {sites : List Site} (accepted : ∀ site ∈ sites, site.Accepted)
    {name : String} :
    name ∈ labels (codeOf sites) ↔ name ∈ sites.flatMap Site.functions ∨
      name ∈ labelSymbols sites ∨ name ∈ ownSymbols sites := by
  rw [(perm_declaredSymbols accepted).mem_iff, declaredSymbols, List.mem_append, List.mem_append]

namespace Apart

variable {bootstrap : Bool} {modules : List Module}

theorem not_mem {sites : List Site} (apart : Apart bootstrap sites) {name : String}
    (function : name ∈ sites.flatMap Site.functions) :
    name ∉ predefined.map Prod.fst ∧ name ∉ HackStack.statics sites ∧
      name ∉ labelSymbols sites ++ ownSymbols sites := by
  have missing := apart.functions name function
  rwa [List.mem_append, not_or, List.mem_append, not_or] at missing

theorem disjoint_ownSymbols (apart : Apart bootstrap (listing bootstrap modules)) :
    (labelSymbols (listing bootstrap modules)).Disjoint
      (ownSymbols (listing bootstrap modules)) := by
  refine List.disjoint_append_right.mpr ⟨apart.returns,
    List.disjoint_append_right.mpr ⟨?_, ?_⟩⟩
  · exact disjoint_of_marked ['$', ':'] (fun _ => marked_labelSymbols)
      fun _ member marked => (marked_branchSymbols member).2 (marked.mono (by simp))
  · exact (disjoint_endings_iff bootstrap modules).mpr ⟨apart.endLabel, apart.haltLabel⟩

theorem nodup (apart : Apart bootstrap (listing bootstrap modules))
    (functions : ((listing bootstrap modules).flatMap Site.functions).Nodup)
    (scopes : ((listing bootstrap modules).flatMap Site.localLabels).Nodup) :
    (declaredSymbols (listing bootstrap modules)).Nodup := by
  have different : (labelSymbols (listing bootstrap modules)).Nodup := scopes.map_on apart.labels
  refine List.nodup_append'.mpr ⟨functions, List.nodup_append'.mpr ⟨different,
    nodup_ownSymbols bootstrap modules, apart.disjoint_ownSymbols⟩, ?_⟩
  exact fun name function other => (apart.not_mem function).2.2 other

end Apart

/-- Labels resolve uniquely exactly where chosen names keep apart. If all functions of a run have
different names and no label is declared twice in one scope, then each label of the output is
declared once and is neither predefined nor a static symbol if and only if the names that the
program chooses meet no other symbol. -/
theorem output_labels_unique_iff {bootstrap : Bool} {modules : List Module} {text : String}
    (produced : Produces bootstrap modules text)
    (functions : ((listing bootstrap modules).flatMap Site.functions).Nodup)
    (scopes : ((listing bootstrap modules).flatMap Site.localLabels).Nodup) :
    (Unambiguous text ∧
      ∀ name ∈ statics (listing bootstrap modules), name ∉ labels (Statement.ofSource text)) ↔
      Apart bootstrap (listing bootstrap modules) := by
  have perm := perm_declaredSymbols produced.listed.accepted
  have kinds := @mem_labels_codeOf _ produced.listed.accepted
  rw [← produced.listed.ofSource] at perm kinds
  constructor
  · rintro ⟨⟨unique, free⟩, undeclared⟩
    obtain ⟨-, rest, chosen⟩ := List.nodup_append'.mp (perm.nodup_iff.mp unique)
    obtain ⟨different, -, own⟩ := List.nodup_append'.mp rest
    obtain ⟨returns, others⟩ := List.disjoint_append_right.mp own
    obtain ⟨-, endings⟩ := List.disjoint_append_right.mp others
    obtain ⟨last, halt⟩ := (disjoint_endings_iff bootstrap modules).mp endings
    refine ⟨fun name function => ?_, List.inj_on_of_nodup_map different, last, halt, returns, ?_⟩
    · have declared := kinds.mpr (.inl function)
      intro taken
      rcases List.mem_append.mp taken with known | taken
      · exact free name declared known
      · rcases List.mem_append.mp taken with static | other
        · exact undeclared name static declared
        · exact chosen function other
    · intro name member static
      refine undeclared name static (kinds.mpr (.inr ?_))
      exact (List.mem_append.mp member).imp_right fun behind => List.mem_append_left _ behind
  · intro apart
    refine ⟨⟨perm.nodup_iff.mpr (apart.nodup functions scopes), ?_⟩, ?_⟩
    · intro name declared known
      rcases kinds.mp declared with function | other
      · exact (apart.not_mem function).1 known
      · exact disjoint_predefined bootstrap modules (List.mem_append.mpr other) known
    · intro name static declared
      rcases kinds.mp declared with function | label | made
      · exact (apart.not_mem function).2.1 static
      · exact apart.statics name (List.mem_append_left _ label) static
      · rcases List.mem_append.mp made with behind | rest
        · exact apart.statics name (List.mem_append_right _ behind) static
        · exact disjoint_statics bootstrap modules rest static

def everyFamily : List Module :=
  [⟨"M", [.function "M.f" 0, .label "L", .push .static 1, .push .constant 1, .arithmetic "eq",
    .call "M.f" 0, .ret]⟩]

theorem output_labels_unique_families :
    ∃ text, Produces true everyFamily text ∧ Unambiguous text ∧
      ∀ name ∈ statics (listing true everyFamily), name ∉ labels (Statement.ofSource text) := by
  obtain ⟨text, produced⟩ := @exists_produces true
    [("M", "function M.f 0\nlabel L\npush static 1\npush constant 1\neq\ncall M.f 0\nreturn")]
    everyFamily (by decide +kernel) (by decide +kernel)
  refine ⟨text, produced, ?_⟩
  exact (output_labels_unique_iff produced (by decide +kernel) (by decide +kernel)).mpr
    (by decide +kernel)

def takenName : List Module :=
  [⟨"M", [.push .constant 1, .push .constant 1, .arithmetic "eq", .function "TRUE_0" 0]⟩]

/-- The one name of a function is enough for a label that is declared twice. -/
theorem function_meets_comparison :
    (takenName.map Module.name).Nodup ∧
      ((listing false takenName).flatMap Site.functions).Nodup ∧
      ((listing false takenName).flatMap Site.localLabels).Nodup ∧
      ∃ text, Produces false takenName text ∧ ¬ (labels (Statement.ofSource text)).Nodup := by
  obtain ⟨text, produced⟩ := @exists_produces false
    [("M", "push constant 1\npush constant 1\neq\nfunction TRUE_0 0\n")] takenName
    (by decide +kernel) (by decide +kernel)
  refine ⟨by decide, by decide +kernel, by decide +kernel, text, produced, ?_⟩
  rw [produced.listed.ofSource]
  decide +kernel

end HackStack
