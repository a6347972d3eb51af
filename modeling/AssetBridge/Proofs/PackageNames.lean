import AssetBridge.Asset.Kind
import AssetBridge.Proofs.Splitting
import Mathlib.Data.List.Basic
import Mathlib.Data.Set.Function

/-!
# Names there and back

A package is named after a name of the registry: a scope is joined to its package by a double
hyphen, and the vendor prefix goes in front. On the way back the prefix is dropped, and every double
hyphen is taken for the slash of a scope. So a name survives when the only double hyphen in its
package is the one that joins, and no other name does.

Double hyphens are found from the left and do not overlap. A hyphen at the end of the scope
therefore pairs with the first hyphen of the seam, while one at the beginning of the package stands
behind a seam that has been found already.

## Main definitions

* `ScopedName`: a scope and a package, as in `@scope/package`
* `ScopedName.HasOneSeam`: the double hyphen that joins the parts is the one that is found
* `Kind.IsPlain`: the names that are no scoped ones and have no vendor prefix
* `Kind.Survives`: the names that come back

## Main results

* `Text.exists_of_contains_double`, `Text.Avoids.replaceAll_double`: the first doubled character
* `ScopedName.splitScope_joinScope_iff`, `Kind.splitScope_joinScope_plain_iff`: which names are
  split into what they were joined from
* `Kind.packageName_comes_back`: names of both kinds, there and back
-/

namespace AssetBridge

/-! ## Doubled characters -/

namespace Text

variable {c : Char} {a s : Text}

/-- In front of the first doubled character stands no other, nor a character that would make a pair
with it. -/
theorem exists_of_contains_double (h : contains [c, c] s = true) :
    ∃ a b, s = a ++ [c, c] ++ b ∧ Avoids c c a := by
  induction s with
  | nil => cases h
  | cons d s ih =>
    by_cases hd : startsWith [c, c] (d :: s) = true
    · obtain ⟨b, hb⟩ := startsWith_iff.1 hd
      exact ⟨[], b, hb, avoids_of_not_mem List.not_mem_nil⟩
    · rw [contains, Bool.or_eq_true, or_iff_right hd] at h
      obtain ⟨a, b, rfl, ha⟩ := ih h
      refine ⟨d :: a, b, rfl, ?_, ?_⟩
      -- A pair at the front of `d :: a` would be one at the front of the whole text.
      · rw [contains, ha.1, Bool.or_false, Bool.eq_false_iff]
        intro hs
        obtain ⟨r, hr⟩ := startsWith_iff.1 hs
        apply hd
        refine startsWith_iff.2 ⟨r ++ [c, c] ++ b, ?_⟩
        rw [← List.cons_append, ← List.cons_append, hr]
        simp
      · cases a with
        | cons e a => simpa using ha.2
        | nil =>
          intro hl
          rw [List.getLast?_singleton, Option.mem_some_iff] at hl
          apply hd
          exact startsWith_iff.2 ⟨c :: b, by simp [hl]⟩

/-- A replacement passes over what stands in front of the first doubled character. -/
theorem Avoids.replaceAll_double (h : Avoids c c a) (new r : Text) :
    replaceAll [c, c] new (a ++ [c, c] ++ r) = a ++ new ++ replaceAll [c, c] new r := by
  induction a with
  | nil => exact replaceAll_append (by simp) new r
  | cons d a ih =>
    have hc := h.1
    rw [contains, Bool.or_eq_false_iff] at hc
    have ha : Avoids c c a := by
      refine ⟨hc.2, fun hl => h.2 ?_⟩
      cases a with
      | nil => cases hl
      | cons e a => simpa using hl
    -- No pair opens with `d`: it would lie within `d :: a`, or take the first `c` of the pair.
    have hs : startsWith [c, c] (d :: (a ++ [c, c] ++ r)) = false := by
      cases a with
      | nil =>
        have hd : c ≠ d := fun e => h.2 (by simp [e])
        exact startsWith_cons_eq_false hd _ _
      | cons e a =>
        have hp := hc.1
        simp only [startsWith, dropPrefix?, List.cons_append] at hp ⊢
        simpa using hp
    rw [List.cons_append, List.cons_append, replaceAll_cons (by simp) new hs, ih ha]
    rfl

/-- What replaces a doubled character stands in the result. -/
theorem mem_replaceAll_double {new : Text} {d : Char} (h : contains [c, c] s = true)
    (hd : d ∈ new) : d ∈ replaceAll [c, c] new s := by
  obtain ⟨a, b, rfl, ha⟩ := exists_of_contains_double h
  rw [ha.replaceAll_double]
  simp [hd]

/-- A doubled character is replaced by something else exactly when it is there. -/
theorem replaceAll_double_eq_self_iff {new : Text} {d : Char} (hd : d ∈ new) (hs : d ∉ s) :
    replaceAll [c, c] new s = s ↔ contains [c, c] s = false := by
  constructor
  · intro he
    by_contra h
    rw [Bool.not_eq_false] at h
    exact hs (he ▸ mem_replaceAll_double h hd)
  · intro h
    exact replaceAll_eq_self (by simp) h new

end Text

namespace Asset

/-! ## Scoped names -/

/-- A scoped name of the registry. -/
structure ScopedName where
  scope : Text
  package : Text
  scope_ne_nil : scope ≠ []
  package_ne_nil : package ≠ []
  not_mem_scope : '/' ∉ scope
  not_mem_package : '/' ∉ package
  head?_scope : scope.head? ≠ some '@'

namespace ScopedName

variable (n : ScopedName)

/-- `@scope/package` -/
def text : Text := '@' :: n.scope ++ '/' :: n.package

/-- The first double hyphen of `scope--package` is the one between the parts, and no other one
follows. -/
structure HasOneSeam : Prop where
  scope : Text.Avoids '-' '-' n.scope
  package : Text.contains ['-', '-'] n.package = false

/-- A scope loses its mark and is joined to the package. -/
theorem joinScope_text : Kind.joinScope n.text = n.scope ++ ['-', '-'] ++ n.package := by
  have hs : '/' ∉ '@' :: n.scope := by simpa using n.not_mem_scope
  obtain ⟨c, s, hc⟩ := List.exists_cons_of_ne_nil n.scope_ne_nil
  have hne : c ≠ '@' := fun e => n.head?_scope (by simp [hc, e])
  have hp := @Text.replaceAll_append ['/'] (by simp) ['-', '-'] n.package
  rw [Text.replaceAll_eq_self_of_not_mem n.not_mem_package, List.singleton_append] at hp
  have hr : Text.replaceAll ['/'] ['-', '-'] n.text =
      '@' :: n.scope ++ (['-', '-'] ++ n.package) := by
    rw [text, Text.replaceAll_append_left hs, hp]
  rw [Kind.joinScope, if_pos ⟨rfl, by simp [text]⟩, hr, hc]
  simp [hne]

/-- **Scopes**: what was joined comes apart into the same parts exactly when it has one seam. -/
theorem splitScope_joinScope_iff :
    Kind.splitScope (Kind.joinScope n.text) = n.text ↔ n.HasOneSeam := by
  have hc : Text.contains ['-', '-'] (n.scope ++ ['-', '-'] ++ n.package) = true :=
    Text.contains_iff.2 ⟨_, _, rfl⟩
  rw [joinScope_text, Kind.splitScope, if_pos hc, text, List.cons_append, List.cons_inj_right]
  constructor
  · intro h
    obtain ⟨a, b, hab, ha⟩ := Text.exists_of_contains_double hc
    -- The first double hyphen becomes the slash of the name, so the scope stands in front of it.
    rw [hab, ha.replaceAll_double, List.append_assoc, List.singleton_append, eq_comm,
      List.append_cons_inj_of_notMem n.not_mem_scope n.not_mem_package] at h
    obtain ⟨rfl, -, hp⟩ := h
    obtain rfl := List.append_cancel_left hab
    exact ⟨ha, (Text.replaceAll_double_eq_self_iff (by simp) n.not_mem_package).1 hp.symm⟩
  · rintro ⟨hs, hp⟩
    rw [hs.replaceAll_double, Text.replaceAll_eq_self (by simp) hp, List.append_assoc]
    rfl

end ScopedName

/-! ## Packages -/

namespace Kind

variable {kind : Kind} {name : Text}

/-- A name that is no scoped one and has no vendor prefix. -/
structure IsPlain (name : Text) : Prop where
  scope : ¬(name.head? = some '@' ∧ '/' ∈ name)
  vendor : Text.startsWith npm.vendorPrefix name = false

/-- A plain name is taken for a scoped one exactly when it holds a double hyphen. -/
theorem splitScope_joinScope_plain_iff (h : IsPlain name) :
    splitScope (joinScope name) = name ↔ Text.contains ['-', '-'] name = false := by
  rw [joinScope, if_neg h.scope, splitScope]
  constructor
  · intro he
    by_contra hc
    rw [Bool.not_eq_false] at hc
    rw [if_pos hc] at he
    -- The result opens with the mark and holds a slash, which makes it a scoped name.
    have hm := Text.mem_replaceAll_double hc (List.mem_singleton_self '/')
    exact h.scope ⟨by rw [← he]; rfl, by rw [← he]; exact List.mem_cons_of_mem _ hm⟩
  · intro hc
    rw [hc]
    rfl

/-- The prefix that was put in front of a name is dropped again, and a name that stayed as it was
has none. -/
theorem registryName_packageName
    (h : Text.startsWith kind.vendorPrefix (kind.localName name) = false) :
    kind.registryName (kind.packageName name) = kind.sourceName (kind.localName name) := by
  rw [registryName, packageName, qualify, h, Bool.or_false]
  congr 1
  split
  · exact Text.trimPrefix_eq_self h
  · exact Text.trimPrefix_append _ _

theorem registryName_packageName_scoped (n : ScopedName) :
    npm.registryName (npm.packageName n.text) = splitScope (joinScope n.text) := by
  apply registryName_packageName
  -- The vendor prefix ends with a slash, and no slash is left of the name.
  show Text.startsWith npm.vendorPrefix (joinScope n.text) = false
  rw [n.joinScope_text, Bool.eq_false_iff, ne_eq, Text.startsWith_iff]
  rintro ⟨r, hr⟩
  have hmem : '/' ∈ n.scope ++ ['-', '-'] ++ n.package := by
    rw [hr]
    exact List.mem_append_left r (by decide)
  simp [n.not_mem_scope, n.not_mem_package] at hmem

theorem registryName_packageName_plain (h : IsPlain name) :
    npm.registryName (npm.packageName name) = splitScope (joinScope name) := by
  apply registryName_packageName
  show Text.startsWith npm.vendorPrefix (joinScope name) = false
  rw [joinScope, if_neg h.scope, h.vendor]

/-- The names that come back: scoped ones with one seam, and plain ones without a double hyphen. -/
inductive Survives : Text → Prop where
  | ofScope {n : ScopedName} : n.HasOneSeam → Survives n.text
  | ofPlain {name : Text} : IsPlain name → Text.contains ['-', '-'] name = false → Survives name

theorem Survives.registryName_packageName (h : Survives name) :
    npm.registryName (npm.packageName name) = name := by
  cases h with
  | ofScope hn => rw [registryName_packageName_scoped, (ScopedName.splitScope_joinScope_iff _).2 hn]
  | ofPlain hp hc =>
    rw [registryName_packageName_plain hp, (splitScope_joinScope_plain_iff hp).2 hc]

/-- **Names there and back.** A scoped name comes back exactly when it has one seam, a plain one
exactly when it holds no double hyphen, so different names that come back never share a package.
A name of bower comes back unless it has the vendor prefix. -/
theorem packageName_comes_back :
    (∀ n : ScopedName, npm.registryName (npm.packageName n.text) = n.text ↔ n.HasOneSeam) ∧
    (∀ name, IsPlain name → (npm.registryName (npm.packageName name) = name ↔
      Text.contains ['-', '-'] name = false)) ∧
    Set.InjOn npm.localName {name | Survives name} ∧
    ∀ name, Text.startsWith bower.vendorPrefix name = false →
      bower.registryName (bower.packageName name) = name := by
  refine ⟨fun n => ?_, fun name h => ?_, ?_, fun name h => registryName_packageName h⟩
  · rw [registryName_packageName_scoped]
    exact n.splitScope_joinScope_iff
  · rw [registryName_packageName_plain h]
    exact splitScope_joinScope_plain_iff h
  · intro m hm n hn hmn
    -- Equal names make equal packages, and both names come back from theirs.
    rw [← hm.registryName_packageName, ← hn.registryName_packageName, packageName, hmn,
      packageName]

/-- `@angular/core` and `left-pad` come back, with different packages; `left--pad` does not; and
`@types/node` is a name of bower like any other. -/
theorem packageName_comes_back_mixedNames :
    npm.registryName (npm.packageName "@angular/core".toList) = "@angular/core".toList ∧
    npm.registryName (npm.packageName "left-pad".toList) = "left-pad".toList ∧
    npm.registryName (npm.packageName "left--pad".toList) ≠ "left--pad".toList ∧
    npm.localName "@angular/core".toList ≠ npm.localName "left-pad".toList ∧
    bower.registryName (bower.packageName "@types/node".toList) = "@types/node".toList := by
  obtain ⟨hscoped, hplain, hinj, hbower⟩ := packageName_comes_back
  let core : ScopedName := ⟨"angular".toList, "core".toList, by decide, by decide, by decide,
    by decide, by decide⟩
  have hcore : core.HasOneSeam := ⟨⟨by decide, by decide⟩, by decide⟩
  have hpad : IsPlain "left-pad".toList := ⟨by decide, by decide⟩
  have hpads : IsPlain "left--pad".toList := ⟨by decide, by decide⟩
  refine ⟨(hscoped core).2 hcore, (hplain _ hpad).2 (by decide), ?_, ?_, hbower _ (by decide)⟩
  · exact fun h => absurd ((hplain _ hpads).1 h) (by decide)
  · exact fun h => absurd (hinj (.ofScope hcore) (.ofPlain hpad (by decide)) h) (by decide)

/-- A scope that ends with a hyphen loses it to the seam; a package may begin with one. -/
example : npm.registryName (npm.packageName "@a-/b".toList) = "@a/-b".toList ∧
    npm.registryName (npm.packageName "@a/-b".toList) = "@a/-b".toList := ⟨rfl, rfl⟩

end Kind

end Asset

end AssetBridge
