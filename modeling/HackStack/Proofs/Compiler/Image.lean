import HackStack.Proofs.Compiler.Blocks
import HackStack.Proofs.Compiler.Legality
import HackStack.Proofs.Reference.Execution

/-! Loaded outputs. Where the labels of an output resolve uniquely, the code of every place lies at
the address of the place, and every label that it declares has the address it stands at. -/
namespace HackStack
open Assembly Machine

/-- The labels of an output resolve uniquely: each is declared once, and none of them is a symbol
that every program knows. -/
structure Unambiguous (text : String) : Prop where
  unique : (labels (Statement.ofSource text)).Nodup
  free : ∀ name ∈ labels (Statement.ofSource text), name ∉ predefined.map Prod.fst

/-- The output of a run that succeeds, loaded, with labels that resolve uniquely. -/
structure Image where
  bootstrap : Bool
  modules : List Module
  text : String
  program : Program
  produced : Produces bootstrap modules text
  loaded : Program.load text = .ok program
  unambiguous : Unambiguous text

namespace Image

def sites (image : Image) : List Site := listing image.bootstrap image.modules

def address (image : Image) (index : Nat) : Nat := HackStack.address image.sites index

theorem statements (image : Image) : Statement.ofSource image.text = codeOf image.sites :=
  image.produced.listed.ofSource

theorem assembled (image : Image) : assemble (codeOf image.sites) = .ok image.program := by
  rw [← image.statements]
  exact image.loaded

theorem unique (image : Image) : (labels (codeOf image.sites)).Nodup := by
  rw [← image.statements]
  exact image.unambiguous.unique

theorem free (image : Image) :
    ∀ name ∈ labels (codeOf image.sites), name ∉ predefined.map Prod.fst := by
  rw [← image.statements]
  exact image.unambiguous.free

theorem accepted (image : Image) : ∀ site ∈ image.sites, site.Accepted :=
  image.produced.listed.accepted

theorem holds (image : Image) :
    Holds image.program.code image.program.value 0 (codeOf image.sites) :=
  holds_of_assemble image.produced.listed.tidy.legal image.assembled

theorem resolved (image : Image) : Resolved image.program.value 0 (codeOf image.sites) :=
  resolved_of_assemble image.assembled image.unique

theorem standard (image : Image) : Standard image.program.value := by
  intro name value member
  refine value_predefined image.assembled member fun declared => ?_
  exact image.free name declared (List.mem_map.mpr ⟨_, member, rfl⟩)

theorem fixed (image : Image) : Fixed image.program.value := image.standard.fixed

section
variable {image : Image} {index : Nat} {site : Site}

theorem codeOf_split (here : image.sites[index]? = some site) :
    codeOf image.sites = codeOf (image.sites.take index) ++
      (site.code ++ codeOf (image.sites.drop (index + 1))) := by
  obtain ⟨bound, rfl⟩ := List.getElem?_eq_some_iff.mp here
  rw [← codeOf_cons, ← codeOf_append, ← List.drop_eq_getElem_cons bound, List.take_append_drop]

theorem address_succ (here : image.sites[index]? = some site) :
    image.address (index + 1) = image.address index + size site.code := by
  obtain ⟨bound, rfl⟩ := List.getElem?_eq_some_iff.mp here
  simp only [address, HackStack.address]
  rw [List.take_succ_eq_append_getElem bound, codeOf_append, size_append]
  simp

theorem holds_site (here : image.sites[index]? = some site) :
    Holds image.program.code image.program.value (image.address index) site.code := by
  have held := image.holds
  rw [codeOf_split here, holds_append, holds_append, Nat.zero_add] at held
  exact held.2.1

theorem resolved_site (here : image.sites[index]? = some site) :
    Resolved image.program.value (image.address index) site.code := by
  have resolved := image.resolved
  rw [codeOf_split here] at resolved
  have inside := resolved.right.left
  rwa [Nat.zero_add] at inside

theorem address_mono (image : Image) {first second : Nat} (order : first ≤ second) :
    image.address first ≤ image.address second := by
  simp only [address, HackStack.address]
  have split := List.take_append_drop first (image.sites.take second)
  rw [List.take_take, Nat.min_eq_left order] at split
  rw [← split, codeOf_append, size_append]
  omega

/-- No place starts strictly inside the code of another. -/
theorem not_inside (image : Image) (first second : Nat) :
    ¬ (image.address first < image.address second ∧
      image.address second < image.address (first + 1)) := by
  rintro ⟨above, below⟩
  rcases Nat.lt_or_ge first second with order | order
  · have later : image.address (first + 1) ≤ image.address second := image.address_mono order
    omega
  · have earlier := image.address_mono order
    omega

theorem address_le (image : Image) (index : Nat) : image.address index ≤ maxConstant := by
  have whole := size_of_assemble image.assembled
  rw [← List.take_append_drop index image.sites, codeOf_append, size_append] at whole
  simp only [address, HackStack.address]
  omega

theorem address_toNat (image : Image) (index : Nat) :
    (BitVec.ofNat 16 (image.address index)).toNat = image.address index := by
  rw [BitVec.toNat_ofNat]
  apply Nat.mod_eq_of_lt
  have bound := image.address_le index
  simp only [maxConstant] at bound
  omega

/-- A label at the start of a place's code has the address of the place. -/
theorem value_head {name : String} {rest : List Statement} (here : image.sites[index]? = some site)
    (head : site.code = .label name :: rest) :
    (image.program.value name).toNat = image.address index :=
  resolved_site here [] name rest head

end
end Image

/-- Sources that compile to code that fits and whose labels resolve uniquely have an image. -/
theorem exists_image {bootstrap : Bool} {sources : List (String × String)}
    {modules : List Module} (read : readModules sources = .ok modules)
    (compiled : compiles bootstrap sources = true)
    (fits : size (codeOf (listing bootstrap modules)) ≤ maxConstant)
    (unique : (labels (codeOf (listing bootstrap modules))).Nodup)
    (free : ∀ name ∈ labels (codeOf (listing bootstrap modules)),
      name ∉ predefined.map Prod.fst) :
    ∃ image : Image, image.sites = listing bootstrap modules := by
  obtain ⟨text, produced⟩ := exists_produces read compiled
  have statements := produced.listed.ofSource
  obtain ⟨program, loaded⟩ := produced.listed.loads (statements ▸ fits)
  exact ⟨⟨bootstrap, modules, text, program, produced, loaded, statements ▸ unique,
    statements ▸ free⟩, rfl⟩

end HackStack
