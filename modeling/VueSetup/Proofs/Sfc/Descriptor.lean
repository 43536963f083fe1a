import VueSetup.Sfc.Descriptor

/-!
# VueSetup.Proofs.Sfc.Descriptor

What a descriptor holds. Every block has a role, and a descriptor holds, role by role, the blocks of
the file with that role in the order of the file (`Descriptor.ofRole_ofBlocks`). There is one when
each slot is asked to take one block at most (`Descriptor.exists_ofBlocks`).

A role does not depend on where the block stands. Blocks are spoken of role by role, without a case
for each of the five slots: what is proved of a role is proved of every slot.
-/

namespace VueSetup.Sfc

/-! ### Roles

A script is a block of its own role if it is a setup script. Three of the five roles can be taken
once. -/

/-- What a block is for. -/
inductive Role where
  | template
  | script
  | scriptSetup
  | style
  | custom
  deriving DecidableEq

/-- The role stands once in a file at most. -/
def Role.isUnique : Role → Bool
  | .template | .script | .scriptSetup => true
  | .style | .custom => false

/-- The role that stands a second time. -/
def Unique.role : Unique → Role
  | .template => .template
  | .script => .script
  | .scriptSetup => .scriptSetup

/-- Each unique role is reported under a rule of its own. -/
theorem Unique.role_inj {a b : Unique} : a.role = b.role ↔ a = b := by
  cases a <;> cases b <;> simp [role]

/-- What the name of a broken rule ends in. -/
def Unique.label : Unique → String
  | .template => "TEMPLATE"
  | .script => "SCRIPT"
  | .scriptSetup => "SCRIPT_SETUP"

/-- The code of the error names the role that stands twice. -/
theorem Duplicate.code_eq (e : Duplicate) : e.code = "DUPLICATE_" ++ e.kind.label := by
  unfold Duplicate.code
  cases e.kind <;> rfl

namespace Block

/-- The role of a block, by its name and by whether a script is a setup script. -/
def role (b : Block) : Role :=
  if sameName b.tag "script" then if b.isSetup then .scriptSetup else .script
  else if sameName b.tag "template" then .template
  else if sameName b.tag "style" then .style
  else .custom

/-- The block wherever it stands. -/
def unplaced (b : Block) : Block :=
  { b with location := ⟨0, 0, 0, 0, 0, 0, 0⟩ }

/-- Its role does not depend on where it stands. -/
@[simp] theorem role_unplaced (b : Block) : b.unplaced.role = b.role := rfl

/-- A script is named so and is no setup script. -/
theorem sameName_of_role_script {b : Block} (h : b.role = .script) :
    sameName b.tag "script" = true ∧ b.isSetup = false := by
  unfold role at h
  by_cases hname : sameName b.tag "script" = true
  · by_cases hsetup : b.isSetup = true
    · simp [hname, hsetup] at h
    · exact ⟨hname, Bool.eq_false_iff.mpr hsetup⟩
  · rw [if_neg hname] at h
    repeat' split at h
    all_goals cases h

end Block

namespace Descriptor

/-- The blocks with a role, in order. -/
def ofRole (d : Descriptor) : Role → List Block
  | .template => d.template.toList
  | .script => d.script.toList
  | .scriptSetup => d.scriptSetup.toList
  | .style => d.styles
  | .custom => d.customBlocks

/-- No block has been added yet. -/
theorem ofRole_empty (r : Role) : ofRole {} r = [] := by
  cases r <;> rfl

/-- A slot for one block holds one at most. -/
theorem length_ofRole (d : Descriptor) {r : Role} (hr : r.isUnique = true) :
    (d.ofRole r).length ≤ 1 := by
  have hslot : ∀ b? : Option Block, b?.toList.length ≤ 1 := by
    intro b?
    cases b? <;> simp
  cases r with
  | template => exact hslot d.template
  | script => exact hslot d.script
  | scriptSetup => exact hslot d.scriptSetup
  | style => cases hr
  | custom => cases hr

theorem map_eq_of_toList {α : Type} {f : Block → α} {a b : Option Block}
    (h : a.toList.map f = b.toList.map f) : a.map f = b.map f := by
  cases a <;> cases b <;> simp_all

/-- The next block comes behind those of its role. -/
theorem ofRole_add {d d' : Descriptor} {b : Block} (h : d.add b = .ok d') (r : Role) :
    d'.ofRole r = d.ofRole r ++ [b].filter (·.role == r) := by
  unfold add at h
  by_cases hscript : sameName b.tag "script" = true
  · by_cases hsetup : b.isSetup = true
    · have hrole : b.role = .scriptSetup := by simp [Block.role, hscript, hsetup]
      rw [if_pos hscript, if_pos hsetup] at h
      split at h <;> cases h
      cases r <;> simp_all [ofRole]
    · have hrole : b.role = .script := by simp [Block.role, hscript, hsetup]
      rw [if_pos hscript, if_neg hsetup] at h
      split at h <;> cases h
      cases r <;> simp_all [ofRole]
  · rw [if_neg hscript] at h
    by_cases htemplate : sameName b.tag "template" = true
    · have hrole : b.role = .template := by simp [Block.role, hscript, htemplate]
      rw [if_pos htemplate] at h
      split at h <;> cases h
      cases r <;> simp_all [ofRole]
    · rw [if_neg htemplate] at h
      by_cases hstyle : sameName b.tag "style" = true
      · have hrole : b.role = .style := by simp [Block.role, hscript, htemplate, hstyle]
        rw [if_pos hstyle] at h
        cases h
        cases r <;> simp_all [ofRole]
      · have hrole : b.role = .custom := by simp [Block.role, hscript, htemplate, hstyle]
        rw [if_neg hstyle] at h
        cases h
        cases r <;> simp_all [ofRole]

/-- Only a block whose slot is taken is refused. -/
theorem taken_of_add {d : Descriptor} {b : Block} {e : Duplicate} (h : d.add b = .error e) :
    b.role.isUnique = true ∧ d.ofRole b.role ≠ [] := by
  unfold add at h
  unfold Block.role
  repeat' split at h
  all_goals simp_all [Role.isUnique, ofRole, Option.isSome_iff_ne_none]

/-- The error names the slot and where the refused block stands. -/
theorem eq_of_add_eq_error {d : Descriptor} {b : Block} {e : Duplicate} (h : d.add b = .error e) :
    e.kind.role = b.role ∧ e.location = b.location := by
  unfold add at h
  unfold Block.role
  repeat' split at h
  all_goals cases h
  all_goals simp_all [Unique.role]

/-- Blocks that are added one after the other come behind those that are there, role by role. -/
theorem ofRole_foldlM_add {bs : List Block} {d d' : Descriptor} (h : bs.foldlM add d = .ok d')
    (r : Role) : d'.ofRole r = d.ofRole r ++ bs.filter (·.role == r) := by
  induction bs generalizing d with
  | nil =>
    cases h
    rw [List.filter_nil, List.append_nil]
  | cons b bs ih =>
    rw [List.foldlM_cons] at h
    cases hadd : d.add b with
    | error e =>
      rw [hadd] at h
      cases h
    | ok e =>
      rw [hadd] at h
      rw [ih h, ofRole_add hadd, List.append_assoc, ← List.filter_append]
      rfl

/-- They can all be added as long as no unique role is to stand twice. -/
theorem exists_foldlM_add {bs : List Block} {d : Descriptor}
    (h : ∀ r : Role, r.isUnique = true → (d.ofRole r ++ bs.filter (·.role == r)).length ≤ 1) :
    ∃ d', bs.foldlM add d = .ok d' := by
  induction bs generalizing d with
  | nil => exact ⟨d, rfl⟩
  | cons b bs ih =>
    rw [List.foldlM_cons]
    cases hadd : d.add b with
    | error e =>
      -- the slot of the block is taken, so the role stands twice
      obtain ⟨hunique, htaken⟩ := taken_of_add hadd
      have hlength := h b.role hunique
      have hpos := List.length_pos_iff.mpr htaken
      rw [List.filter_cons_of_pos (by simp), List.length_append, List.length_cons] at hlength
      omega
    | ok e =>
      refine ih fun r hr => ?_
      rw [ofRole_add hadd, List.append_assoc, ← List.filter_append]
      exact h r hr

/-- **A descriptor holds the blocks of a file by role.** -/
theorem ofRole_ofBlocks {bs : List Block} {d : Descriptor} (h : ofBlocks bs = .ok d) (r : Role) :
    d.ofRole r = bs.filter (·.role == r) := by
  rw [ofRole_foldlM_add h, ofRole_empty, List.nil_append]

/-- A file has a descriptor when no unique role stands twice. -/
theorem exists_ofBlocks {bs : List Block}
    (h : ∀ r : Role, r.isUnique = true → (bs.filter (·.role == r)).length ≤ 1) :
    ∃ d, ofBlocks bs = .ok d := by
  refine exists_foldlM_add fun r hr => ?_
  rw [ofRole_empty, List.nil_append]
  exact h r hr

/-- The first block that is refused, and those before it. -/
theorem exists_of_ofBlocks_eq_error {bs : List Block} {e : Duplicate} (h : ofBlocks bs = .error e) :
    ∃ before b after d, bs = before ++ b :: after ∧ ofBlocks before = .ok d ∧
      d.add b = .error e := by
  unfold ofBlocks at h ⊢
  generalize ({} : Descriptor) = d at h ⊢
  induction bs generalizing d with
  | nil => cases h
  | cons b bs ih =>
    rw [List.foldlM_cons] at h
    cases hadd : d.add b with
    | error f =>
      rw [hadd] at h
      cases h
      exact ⟨[], b, bs, d, rfl, rfl, hadd⟩
    | ok d' =>
      rw [hadd] at h
      obtain ⟨before, a, after, d'', rfl, hbefore, ha⟩ := ih d' h
      refine ⟨b :: before, a, after, d'', rfl, ?_, ha⟩
      rw [List.foldlM_cons, hadd]
      exact hbefore

end Descriptor

end VueSetup.Sfc
