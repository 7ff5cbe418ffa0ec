import HackStack.Proofs.Assembly.Variables
import HackStack.Proofs.Compiler.Hygiene
import HackStack.Proofs.Compiler.Simulation

/-! What the symbols in generated code stand for. Each of them is a register, a symbol that the same
code declares, the target of a jump or a call, or a static; and if the names of a program are clean,
loading gives each of them what it stands for. -/
namespace HackStack
open Assembly Machine

def registers : List (String × Word) :=
  [("SP", 0), ("LCL", 1), ("ARG", 2), ("THIS", 3), ("THAT", 4), ("R5", 5), ("R6", 6), ("R7", 7),
   ("R8", 8), ("R9", 9), ("R10", 10), ("R11", 11), ("R12", 12), ("R13", 13), ("R14", 14)]

theorem registers_predefined : registers ⊆ predefined := by decide

/-- What a symbol in the code of a place stands for. A jump means the code behind the label of its
own scope, a call the function of that name, and the symbol behind a call the code that follows it;
other symbols are declared in the same code, or are statics, which lie side by side in the order of
their first use. -/
inductive Meaning (sites : List Site) (index : Nat) : Site → String → Nat → Prop
  | register {site : Site} {name : String} {value : Word} (known : (name, value) ∈ registers) :
      Meaning sites index site name value.toNat
  | goto {generator other : Generator} {name : String} {target : Nat}
      (declared : sites[target]? = some (.compiled other (.label name)))
      (scope : other.scope = generator.scope) :
      Meaning sites index (.compiled generator (.goto name)) (generator.scope.resolve name)
        (address sites (target + 1))
  | ifGoto {generator other : Generator} {name : String} {target : Nat}
      (declared : sites[target]? = some (.compiled other (.label name)))
      (scope : other.scope = generator.scope) :
      Meaning sites index (.compiled generator (.ifGoto name)) (generator.scope.resolve name)
        (address sites (target + 1))
  | function {generator other : Generator} {name : String} {arguments locals : Word} {target : Nat}
      (defined : sites[target]? = some (.compiled other (.function name locals))) :
      Meaning sites index (.compiled generator (.call name arguments)) name (address sites target)
  | landing {generator : Generator} {name : String} {arguments : Word} :
      Meaning sites index (.compiled generator (.call name arguments)) generator.returnSymbol
        (address sites (index + 1))
  | own {site : Site} {head tail : List Statement} {name : String}
      (declared : site.code = head ++ .label name :: tail) :
      Meaning sites index site name (address sites index + size head)
  | static {site : Site} {name : String} (symbol : site.static? = some name) :
      Meaning sites index site name (firstVariable + (variableNames (codeOf sites)).idxOf name)

/-- A program loads what the symbols of its places stand for. Only the target of a jump to a missing
label or of a call of a missing function stands for nothing. Statics share a cell if they are the
same static of the same module, and only then. -/
structure Faithful (sites : List Site) (program : Program) : Prop where
  resolves : ∀ (index : Nat) (site : Site) (head : List Statement) (name : String)
    (tail : List Statement), sites[index]? = some site → site.code = head ++ .symbol name :: tail →
      ∃ word, program.code[address sites index + size head]? = some (.address word) ∧
        ∀ value, Meaning sites index site name value → word.toNat = value
  meant : ∀ (index : Nat) (site : Site), sites[index]? = some site →
    ∀ name ∈ references site.code, (∃ value, Meaning sites index site name value) ∨
      site.target? = some name ∧ site.reaches sites = false
  statics : ∀ (first second : Generator) (index offset : Word),
    first.staticSymbol index ∈ statics sites → second.staticSymbol offset ∈ statics sites →
      (program.value (first.staticSymbol index) = program.value (second.staticSymbol offset) ↔
        first.module = second.module ∧ index = offset)

theorem references_pushZeros {count : Nat} {name : String}
    (member : name ∈ references (List.replicate count Code.pushZero).flatten) : name = "SP" := by
  rw [references, List.filterMap_flatten, List.map_replicate] at member
  obtain ⟨piece, among, held⟩ := List.mem_flatten.mp member
  rw [List.eq_of_mem_replicate among] at held
  exact List.mem_singleton.mp held

namespace Code

def Place.symbol : Place → String
  | .based base _ => base
  | .direct symbol => symbol

theorem references_pushFrom (place : Place) :
    references (pushFrom place) = [place.symbol, "SP"] := by
  cases place <;> rfl

theorem references_popTo (place : Place) :
    references (popTo place) ⊆ [place.symbol, "SP", "R13"] := by
  cases place with
  | based base offset =>
    have all : references (popTo (.based base offset)) = [base, "R13", "SP", "R13"] := rfl
    simp [all, Place.symbol]
  | direct symbol =>
    have all : references (popTo (.direct symbol)) = ["SP", symbol] := rfl
    simp [all, Place.symbol]

theorem references_operation (count : Nat) (operation : Operation) :
    references (Code.operation count operation) ⊆
      "SP" :: labels (Code.operation count operation) := by
  cases operation with
  | not | neg | add | sub | and | or => exact fun _ member => member
  | eq | gt | lt => simp [Code.operation, references_compare, labels_compare]

theorem references_call (returnSymbol name : String) (arguments : Nat) :
    references (call returnSymbol name arguments) ⊆
      returnSymbol :: name :: ["SP", "LCL", "ARG", "THIS", "THAT"] := by
  have all : references (call returnSymbol name arguments) =
      [returnSymbol, "SP", "LCL", "SP", "ARG", "SP", "THIS", "SP", "THAT", "SP", "SP", "ARG", "SP",
        "LCL", name] := rfl
  simp [all]

end Code

/-- The cell of a segment and an index is named by a register or a static. -/
theorem Generator.place_symbol {generator : Generator} {segment : Segment} {index : Word}
    {place : Code.Place} (placed : generator.place segment index = .ok place) :
    place.symbol ∈ registers.map Prod.fst ∨
      segment = .static ∧ generator.staticSymbol index = place.symbol := by
  cases segment with
  | constant => cases placed
  | locals | arguments | this | that =>
    obtain ⟨offset, -, result⟩ := bind_ok placed
    cases result
    exact .inl (by simp [Code.Place.symbol, registers])
  | static =>
    cases placed
    exact .inr ⟨rfl, rfl⟩
  | temp =>
    obtain ⟨offset, checked, result⟩ := bind_ok placed
    obtain ⟨rfl, bound⟩ := Generator.checked_ok checked
    cases result
    have known : ∀ offset < 8, "R" ++ (5 + offset).repr ∈ registers.map Prod.fst := by decide
    exact .inl (known _ (by omega))
  | pointer =>
    obtain ⟨offset, checked, result⟩ := bind_ok placed
    cases result
    simp only [Code.Place.symbol]
    split <;> exact .inl (by decide)

/-- The symbols that the code of a place can hold: registers, the symbols that it declares itself,
its target and its static. -/
theorem Site.mem_references {site : Site} (accepted : site.Accepted) {name : String}
    (member : name ∈ references site.code) :
    name ∈ registers.map Prod.fst ∨ name ∈ labels site.code ∨ site.target? = some name ∨
      site.static? = some name := by
  have stack : ["SP"] ⊆ registers.map Prod.fst := by decide
  cases site with
  | setStack => exact .inl (stack member)
  | loop label => exact .inr (.inl member)
  | compiled generator command =>
    obtain ⟨code, generated⟩ := accepted
    rw [Site.code_of_ok generated] at member ⊢
    have named : ∀ {segment index place}, generator.place segment index = .ok place →
        name ∈ [place.symbol, "SP", "R13"] → name ∈ registers.map Prod.fst ∨
          segment = .static ∧ generator.staticSymbol index = name := by
      intro segment index place placed among
      rcases List.mem_cons.mp among with rfl | among
      · exact Generator.place_symbol placed
      · have scratch : ["SP", "R13"] ⊆ registers.map Prod.fst := by decide
        exact .inl (scratch among)
    cases command with
    | arithmetic mnemonic =>
      cases found : Operation.ofMnemonic? mnemonic with
      | none => simp [Generator.code, found] at generated
      | some operation =>
        simp only [Generator.code, found, Except.ok.injEq] at generated
        subst generated
        rcases List.mem_cons.mp (Code.references_operation _ _ member) with rfl | own
        · exact .inl (stack List.mem_cons_self)
        · exact .inr (.inl own)
    | push segment index =>
      have static : segment = .static ∧ generator.staticSymbol index = name →
          Site.static? (.compiled generator (.push segment index)) = some name := by
        rintro ⟨rfl, rfl⟩
        rfl
      cases segment with
      | constant =>
        obtain ⟨value, -, result⟩ := bind_ok generated
        cases result
        exact .inl (stack member)
      | locals | static | arguments | this | that | pointer | temp =>
        obtain ⟨place, placed, result⟩ := bind_ok generated
        cases result
        rw [Code.references_pushFrom] at member
        rcases named placed (List.mem_append_left ["R13"] member) with known | same
        · exact .inl known
        · exact .inr (.inr (.inr (static same)))
    | pop segment index =>
      obtain ⟨place, placed, result⟩ := bind_ok generated
      cases result
      rcases named placed (Code.references_popTo place member) with known | ⟨rfl, rfl⟩
      · exact .inl known
      · exact .inr (.inr (.inr rfl))
    | label =>
      cases generated
      cases member
    | goto name =>
      cases generated
      exact .inr (.inr (.inl (by rw [List.mem_singleton.mp member]; rfl)))
    | ifGoto target =>
      cases generated
      rcases List.mem_cons.mp member with rfl | member
      · exact .inl (stack List.mem_cons_self)
      · exact .inr (.inr (.inl (by rw [List.mem_singleton.mp member]; rfl)))
    | function name locals =>
      cases generated
      exact .inl (stack (List.mem_singleton.mpr (references_pushZeros member)))
    | call name arguments =>
      obtain ⟨count, -, result⟩ := bind_ok generated
      cases result
      rcases List.mem_cons.mp (Code.references_call _ _ _ member) with rfl | member
      · exact .inr (.inl List.mem_cons_self)
      · rcases List.mem_cons.mp member with rfl | member
        · exact .inr (.inr (.inl rfl))
        · have saved : ["SP", "LCL", "ARG", "THIS", "THAT"] ⊆ registers.map Prod.fst := by decide
          exact .inl (saved member)
    | ret =>
      cases generated
      have all : references Code.ret ⊆ registers.map Prod.fst := by decide
      exact .inl (all member)

/-- Every symbol in the code of a place stands for something, unless its target is missing. -/
theorem Meaning.exists_of_mem {sites : List Site} {site : Site} (index : Nat)
    (accepted : site.Accepted) {name : String} (member : name ∈ references site.code) :
    (∃ value, Meaning sites index site name value) ∨
      site.target? = some name ∧ site.reaches sites = false := by
  rcases Site.mem_references accepted member with known | own | target | static
  · obtain ⟨entry, among, rfl⟩ := List.mem_map.mp known
    exact .inl ⟨_, .register among⟩
  · obtain ⟨head, tail, code⟩ := List.append_of_mem (mem_labels.mp own)
    exact .inl ⟨_, .own code⟩
  · cases reached : site.reaches sites with
    | false => exact .inr ⟨target, rfl⟩
    | true =>
      have place : ∀ {test : Site → Bool}, sites.any test = true →
          ∃ (found : Nat) (other : Site), sites[found]? = some other ∧ test other = true := by
        intro test passed
        obtain ⟨other, inside, holds⟩ := List.any_eq_true.mp passed
        obtain ⟨found, there⟩ := List.getElem?_of_mem inside
        exact ⟨found, other, there, holds⟩
      unfold Site.target? at target
      split at target
      · cases target
        obtain ⟨found, other, there, declares⟩ := place reached
        obtain ⟨generator, scope, rfl⟩ := Site.eq_of_declares declares
        exact .inl ⟨_, .goto there scope⟩
      · cases target
        obtain ⟨found, other, there, declares⟩ := place reached
        obtain ⟨generator, scope, rfl⟩ := Site.eq_of_declares declares
        exact .inl ⟨_, .ifGoto there scope⟩
      · cases target
        obtain ⟨found, other, there, defines⟩ := place reached
        obtain ⟨generator, locals, rfl⟩ := Site.eq_of_defines defines
        exact .inl ⟨_, .function there⟩
      · cases target
  · exact .inl ⟨_, .static static⟩

theorem mem_references_codeOf {sites : List Site} {name : String} :
    name ∈ references (codeOf sites) ↔ ∃ site ∈ sites, name ∈ references site.code := by
  rw [references, codeOf, List.filterMap_flatMap, List.mem_flatMap]
  rfl

theorem mem_references_of_static {site : Site} {name : String} (static : site.static? = some name) :
    name ∈ references site.code := by
  unfold Site.static? at static
  split at static
  · cases static
    exact List.mem_cons_self
  · cases static
    exact List.mem_cons_of_mem _ List.mem_cons_self
  · cases static

theorem mem_variablesIn_of_static {whole : List Statement} {sites : List Site} {name : String}
    (static : name ∈ statics sites) (undeclared : name ∉ labels whole) :
    name ∈ variablesIn whole (codeOf sites) := by
  refine mem_variablesIn ?_ undeclared fun known => ?_
  · obtain ⟨site, inside, found⟩ := List.mem_filterMap.mp static
    exact mem_references_codeOf.mpr ⟨site, inside, mem_references_of_static found⟩
  · exact not_marked_predefined known ((marked_statics static).mono (by simp))

theorem mem_variableNames_of_static {sites : List Site} {name : String}
    (static : name ∈ statics sites) (undeclared : name ∉ labels (codeOf sites)) :
    name ∈ variableNames (codeOf sites) :=
  List.mem_eraseDups.mpr (mem_variablesIn_of_static static undeclared)

/-- The symbol of a static determines its module and its index. -/
theorem Generator.staticSymbol_inj {first second : Generator} {index offset : Word}
    (same : first.staticSymbol index = second.staticSymbol offset) :
    first.module = second.module ∧ index = offset := by
  have spelled : first.module.toList ++ '.' :: index.toNat.repr.toList =
      second.module.toList ++ '.' :: offset.toNat.repr.toList := by
    simpa [Generator.staticSymbol] using congrArg String.toList same
  -- modules may have dots in their names, but a number has none
  have numbers := eq_of_append_cons spelled (not_mem_repr (by decide) _)
    (not_mem_repr (by decide) _)
  rw [numbers] at spelled
  refine ⟨String.toList_inj.mp (List.append_cancel_right spelled), ?_⟩
  exact BitVec.eq_of_toNat_eq (repr_injective (String.toList_inj.mp numbers))

theorem Generator.staticSymbol_eq_iff {first second : Generator} {index offset : Word} :
    first.staticSymbol index = second.staticSymbol offset ↔
      first.module = second.module ∧ index = offset := by
  constructor
  · exact staticSymbol_inj
  · rintro ⟨module, rfl⟩
    rw [staticSymbol, staticSymbol, module]

namespace Image

variable {image : Image} {index : Nat} {site : Site}

theorem value_static
    (undeclared : ∀ name ∈ statics image.sites, name ∉ labels (codeOf image.sites))
    {name : String} (static : name ∈ statics image.sites) :
    (image.program.value name).toNat =
      firstVariable + (variableNames (codeOf image.sites)).idxOf name :=
  value_variableName image.assembled
    (mem_variableNames_of_static static (undeclared name static))

/-- What a symbol stands for is the value that it is loaded with. -/
theorem value_of_meaning
    (undeclared : ∀ name ∈ statics image.sites, name ∉ labels (codeOf image.sites))
    (here : image.sites[index]? = some site) {name : String} {value : Nat}
    (meaning : Meaning image.sites index site name value) :
    (image.program.value name).toNat = value := by
  have behind : ∀ {generator : Generator} {label : String} {target : Nat},
      image.sites[target]? = some (.compiled generator (.label label)) →
        (image.program.value (generator.scope.resolve label)).toNat =
          image.address (target + 1) := by
    intro generator label target declared
    rw [address_succ declared]
    exact value_head declared rfl
  cases meaning with
  | register known => rw [image.standard _ _ (registers_predefined known)]
  | goto declared scope =>
    rw [← scope]
    exact behind declared
  | ifGoto declared scope =>
    rw [← scope]
    exact behind declared
  | function defined => exact value_head defined rfl
  | landing =>
    rw [value_returnSymbol here]
    exact image.address_toNat (index + 1)
  | own declared => exact resolved_site here _ _ _ declared
  | static symbol =>
    refine value_static undeclared (List.mem_filterMap.mpr ⟨site, ?_, symbol⟩)
    exact List.mem_of_getElem? here

theorem value_static_eq_iff
    (undeclared : ∀ name ∈ statics image.sites, name ∉ labels (codeOf image.sites))
    {first second : Generator} {index offset : Word}
    (here : first.staticSymbol index ∈ statics image.sites)
    (there : second.staticSymbol offset ∈ statics image.sites) :
    image.program.value (first.staticSymbol index) =
        image.program.value (second.staticSymbol offset) ↔
      first.module = second.module ∧ index = offset := by
  rw [← Generator.staticSymbol_eq_iff]
  exact value_variableName_inj image.assembled
    (mem_variableNames_of_static here (undeclared _ here))
    (mem_variableNames_of_static there (undeclared _ there))

theorem faithful (image : Image)
    (undeclared : ∀ name ∈ statics image.sites, name ∉ labels (codeOf image.sites)) :
    Faithful image.sites image.program where
  resolves := by
    intro index site head name tail here code
    have held := holds_site here
    rw [code, holds_append] at held
    refine ⟨image.program.value name, held.2.1 _ rfl, ?_⟩
    intro value meaning
    exact value_of_meaning undeclared here meaning
  meant := by
    intro index site here name member
    exact Meaning.exists_of_mem index (image.accepted site (List.mem_of_getElem? here)) member
  statics := fun _ _ _ _ => value_static_eq_iff undeclared

end Image

/-- Symbols resolve to what they stand for. If the names of a program are clean and its output fits,
the output loads, and every symbol in it, at its own place in the code, is loaded as what it stands
for. -/
theorem references_resolve_as_meant {bootstrap : Bool} {modules : List Module} {text : String}
    (produced : Produces bootstrap modules text)
    (fits : size (Statement.ofSource text) ≤ maxConstant)
    (hygienic : Hygienic modules (listing bootstrap modules)) :
    ∃ program, Program.load text = .ok program ∧
      Statement.ofSource text = codeOf (listing bootstrap modules) ∧
      Faithful (listing bootstrap modules) program := by
  obtain ⟨program, loaded⟩ := produced.listed.loads fits
  let image : Image :=
    ⟨bootstrap, modules, text, program, produced, loaded, hygienic.unambiguous produced⟩
  refine ⟨program, loaded, image.statements, ?_⟩
  exact image.faithful (hygienic.undeclared produced)

def twoScopes : List Module :=
  [⟨"Sys", [.label "L", .goto "L", .function "Sys.init" 0, .label "L", .push .static 0,
    .ifGoto "L", .call "Main.f" 1, .pop .static 1, .ret]⟩,
   ⟨"Main", [.function "Main.f" 0, .push .static 0, .push .constant 3, .arithmetic "lt", .ret]⟩]

/-- The two jumps to `L` go to addresses 48 and 50, and the two statics are the cells 16 and 18. -/
theorem references_resolve_as_meant_scopes :
    Hygienic twoScopes (listing true twoScopes) ∧ ∃ text program,
      Produces true twoScopes text ∧ size (Statement.ofSource text) ≤ maxConstant ∧
      Program.load text = .ok program ∧ Faithful (listing true twoScopes) program ∧
      program.code[48]? = some (.address 48) ∧ program.code[59]? = some (.address 50) ∧
      program.code[50]? = some (.address 16) ∧ program.code[150]? = some (.address 18) := by
  have hygienic : Hygienic twoScopes (listing true twoScopes) := by decide +kernel
  obtain ⟨text, produced⟩ := @exists_produces true
    [("Sys", "label L\ngoto L\nfunction Sys.init 0\nlabel L\npush static 0\nif-goto L\n" ++
        "call Main.f 1\npop static 1\nreturn"),
     ("Main", "function Main.f 0\npush static 0\npush constant 3\nlt\nreturn")]
    twoScopes (by decide +kernel) (by decide +kernel)
  have fits : size (Statement.ofSource text) ≤ maxConstant := by
    rw [produced.listed.ofSource]
    decide +kernel
  obtain ⟨program, loaded, -, faithful⟩ := references_resolve_as_meant produced fits hygienic
  have word : ∀ {index site head name tail place value},
      (listing true twoScopes)[index]? = some site → site.code = head ++ .symbol name :: tail →
      address (listing true twoScopes) index + size head = place →
      Meaning (listing true twoScopes) index site name value →
      program.code[place]? = some (.address (BitVec.ofNat 16 value)) := by
    rintro index site head name tail _ value here code rfl meaning
    obtain ⟨word, held, equal⟩ := faithful.resolves index site head name tail here code
    rw [held, ← equal value meaning, BitVec.ofNat_toNat, BitVec.setWidth_eq]
  refine ⟨hygienic, text, program, produced, fits, loaded, faithful, ?_, ?_, ?_, ?_⟩
  · exact (@word 4 _ [] _ _ 48 _ rfl rfl (by decide +kernel)
      (@Meaning.goto _ _ _ _ _ 3 rfl rfl)).trans (by decide +kernel)
  · exact (@word 8 _ Code.popData _ _ 59 _ rfl rfl (by decide +kernel)
      (@Meaning.ifGoto _ _ _ _ _ 6 rfl rfl)).trans (by decide +kernel)
  · exact (@word 7 _ [] _ _ 50 _ rfl rfl (by decide +kernel) (.static rfl)).trans
      (by decide +kernel)
  · exact (@word 13 _ [] _ _ 150 _ rfl rfl (by decide +kernel) (.static rfl)).trans
      (by decide +kernel)

end HackStack
