import Ucore.Lib.Words

/- kern/mm/memlayout.h and the page loops that the physical page managers share. A page
   descriptor is known by its index in `pages`, so that pointer comparison and pointer
   arithmetic are those of Nat. Only the two flag bits that the managers read are kept
   of `flags`. -/
namespace Ucore
open Words

structure Page where
  ref : Int
  reserved : Bool
  property : Nat
  pageProperty : Bool
  deriving DecidableEq, Repr

abbrev Pages := Nat → Page

def Pages.edit (pages : Pages) (i : Nat) (f : Page → Page) : Pages :=
  Function.update pages i (f (pages i))

def Pages.setProperty (pages : Pages) (i : Nat) (v : Int) : Pages :=
  pages.edit i fun p => { p with property := u32 v }

def Pages.setPageProperty (pages : Pages) (i : Nat) : Pages :=
  pages.edit i fun p => { p with pageProperty := true }

def Pages.clearPageProperty (pages : Pages) (i : Nat) : Pages :=
  pages.edit i fun p => { p with pageProperty := false }

/- The page loop of the `init_memmap` functions, `k` pages from `p` on: `none` is a
   failed assertion. -/
def initPages (pages : Pages) (p : Nat) : Nat → Option Pages
  | 0 => some pages
  | k + 1 =>
      if (pages p).reserved then
        initPages (pages.edit p fun _ => ⟨0, false, 0, false⟩) (p + 1) k
      else none

/- The page loop of the `free_pages` functions. -/
def releasePages (pages : Pages) (p : Nat) : Nat → Option Pages
  | 0 => some pages
  | k + 1 =>
      if !(pages p).reserved && !(pages p).pageProperty then
        releasePages
          (pages.edit p fun q => { q with ref := 0, reserved := false, pageProperty := false })
          (p + 1) k
      else none

def initializedPages (pages : Pages) (p k : Nat) : Pages :=
  fun i => if p ≤ i ∧ i < p + k then ⟨0, false, 0, false⟩ else pages i

def releasedPages (pages : Pages) (p k : Nat) : Pages := fun i =>
  if p ≤ i ∧ i < p + k then { pages i with ref := 0, reserved := false, pageProperty := false }
  else pages i

section
variable {pages : Pages} {p k : Nat}

theorem init_pages_run (reserved : ∀ i, p ≤ i → i < p + k → (pages i).reserved = true) :
    initPages pages p k = some (initializedPages pages p k) := by
  induction k generalizing pages p with
  | zero =>
    have none_inside : ∀ i, ¬ (p ≤ i ∧ i < p) := by intro i; omega
    have same : initializedPages pages p 0 = pages := by
      funext i; simp [initializedPages, none_inside i]
    rw [same]; rfl
  | succ k ih =>
    have first : (pages p).reserved = true := reserved p (by omega) (by omega)
    unfold initPages
    rw [if_pos first, ih]
    · simp only [Option.some.injEq]
      funext i
      by_cases here : i = p
      · subst i; simp [initializedPages, Pages.edit]
      · simp only [initializedPages, Pages.edit, Function.update, here, ↓reduceDIte]
        congr 1
        apply propext
        omega
    · intro i lower upper
      have here : i ≠ p := by omega
      simpa [Pages.edit, here] using reserved i (by omega) (by omega)

theorem release_pages_run (clear : ∀ i, p ≤ i → i < p + k →
      (pages i).reserved = false ∧ (pages i).pageProperty = false) :
    releasePages pages p k = some (releasedPages pages p k) := by
  induction k generalizing pages p with
  | zero =>
    have none_inside : ∀ i, ¬ (p ≤ i ∧ i < p) := by intro i; omega
    have same : releasedPages pages p 0 = pages := by
      funext i; simp [releasedPages, none_inside i]
    rw [same]; rfl
  | succ k ih =>
    have first := clear p (by omega) (by omega)
    unfold releasePages
    simp only [first, Bool.not_false, Bool.and_self, ↓reduceIte]
    rw [ih]
    · simp only [Option.some.injEq]
      funext i
      by_cases here : i = p
      · subst i; simp [releasedPages, Pages.edit]
      · simp only [releasedPages, Pages.edit, Function.update, here, ↓reduceDIte]
        congr 1
        apply propext
        omega
    · intro i lower upper
      have here : i ≠ p := by omega
      simpa [Pages.edit, here] using clear i (by omega) (by omega)

theorem released_pages_property (i : Nat) :
    (releasedPages pages p k i).property = (pages i).property := by
  unfold releasedPages
  split <;> rfl

end

end Ucore
