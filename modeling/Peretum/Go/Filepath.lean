import Peretum.Go.Strings

/-!
# Paths of files

`filepath.Clean` resolves the components `.` and `..` of a path by its text alone. A cleaned
path is a place that one comes to by walking the components one by one, so a joined path is
the walk on from its first part.
-/

namespace Go

/-- A cleaned path: whether it starts at the root, how many `..` it starts with, and the
names that follow. -/
structure Path where
  rooted : Bool
  /-- The number of leading `..`. -/
  ups : Nat
  names : List Str
  ups_eq_zero : rooted = true → ups = 0
  deriving DecidableEq

namespace Path

/-- The root, or else the working directory. -/
def start (rooted : Bool) : Path := ⟨rooted, 0, [], fun _ => rfl⟩

def parent (p : Path) : Path :=
  match p.names with
  | [] =>
      if h : p.rooted = true then p
      else { p with ups := p.ups + 1, ups_eq_zero := fun hrooted => absurd hrooted h }
  | _ :: _ => { p with names := p.names.dropLast }

/-- Walk on by one component. -/
def walk (p : Path) (c : Str) : Path :=
  if c = [] ∨ c = str "." then p
  else if c = str ".." then p.parent
  else { p with names := p.names ++ [c] }

/-- The path is the directory or lies below it. -/
def Below (d p : Path) : Prop := p.rooted = d.rooted ∧ p.ups = d.ups ∧ d.names <+: p.names

/-- The path names something in the directory or in a directory below it. -/
def Inside (d p : Path) : Prop := Below d p ∧ p ≠ d

instance decidableBelow (d p : Path) : Decidable (Below d p) :=
  inferInstanceAs (Decidable (_ ∧ _ ∧ _))

instance decidableInside (d p : Path) : Decidable (Inside d p) :=
  inferInstanceAs (Decidable (_ ∧ _))

theorem walk_of_name (p : Path) {c : Str} (hempty : c ≠ []) (hdot : c ≠ str ".")
    (hup : c ≠ str "..") : p.walk c = { p with names := p.names ++ [c] } := by
  rw [walk, if_neg (by simp [hempty, hdot]), if_neg hup]

/-- A step down ends inside a directory exactly if it starts at or below it. -/
theorem inside_walk_iff (d p : Path) {c : Str} (hempty : c ≠ []) (hdot : c ≠ str ".")
    (hup : c ≠ str "..") : Inside d (p.walk c) ↔ Below d p := by
  rw [walk_of_name p hempty hdot hup]
  constructor
  · rintro ⟨⟨hrooted, hups, hnames⟩, hne⟩
    refine ⟨hrooted, hups, ?_⟩
    rcases List.prefix_concat_iff.mp hnames with heq | hprefix
    · -- Then the step ends at the directory itself.
      cases d
      simp_all
    · exact hprefix
  · rintro ⟨hrooted, hups, hnames⟩
    refine ⟨⟨hrooted, hups, hnames.trans (List.prefix_append _ _)⟩, ?_⟩
    rintro rfl
    have hlength := hnames.length_le
    simp only [List.length_append, List.length_singleton] at hlength
    omega

end Path

/-- `filepath.Clean`. -/
def clean (path : Str) : Path :=
  (split 0x2F path).foldl Path.walk (.start (path.head? == some 0x2F))

/-- `filepath.Join` of two parts. -/
def joinPath (dir name : Str) : Path :=
  if dir = [] then clean name else clean (dir ++ str "/" ++ name)

example : joinPath (str "config.d") (str "../x/./a.yaml") =
    ⟨false, 0, [str "x", str "a.yaml"], by decide⟩ := by decide

example : clean (str "/../a/../../b/") = ⟨true, 0, [str "b"], by decide⟩ := by decide

/-- Where the walk of the second part of a join starts: an empty first part is left out. -/
def joinStart (dir name : Str) : Path :=
  if dir = [] then .start (name.head? == some 0x2F) else clean dir

theorem joinPath_eq (dir name : Str) :
    joinPath dir name = (split 0x2F name).foldl Path.walk (joinStart dir name) := by
  by_cases hdir : dir = []
  · rw [joinPath, joinStart, if_pos hdir, if_pos hdir, clean]
  · have hslash : str "/" = [0x2F] := by decide
    have hsplit : split 0x2F (dir ++ str "/" ++ name) = split 0x2F dir ++ split 0x2F name := by
      rw [hslash, List.append_assoc, List.singleton_append]
      exact List.splitOnP_append_cons _ _ (by simp)
    have hhead : (dir ++ str "/" ++ name).head? = dir.head? := by
      cases dir with
      | nil => exact absurd rfl hdir
      | cons b dir => rfl
    rw [joinPath, joinStart, if_neg hdir, if_neg hdir, clean, clean, hsplit, hhead,
      List.foldl_append]

/-- A name without separators is a name in the first part. -/
theorem joinStart_of_not_mem (dir : Str) {name : Str} (hname : 0x2F ∉ name) :
    joinStart dir name = clean dir := by
  unfold joinStart
  split
  · next hdir =>
    have hhead : (name.head? == some 0x2F) = false := by
      rw [beq_eq_false_iff_ne]
      intro hslash
      exact hname (List.mem_of_head? hslash)
    rw [hhead, hdir]
    decide
  · rfl

theorem split_append_of_not_mem {sep : UInt8} (s : Str) {t : Str} (ht : sep ∉ t) :
    ∃ last, split sep s = (split sep s).dropLast ++ [last] ∧
      split sep (s ++ t) = (split sep s).dropLast ++ [last ++ t] := by
  by_cases hs : sep ∈ s
  · obtain ⟨last, front, hreverse, hlast⟩ := List.eq_append_cons_of_mem (List.mem_reverse.mpr hs)
    have hsplit : s = front.reverse ++ sep :: last.reverse := by
      have heq := congrArg List.reverse hreverse
      simpa using heq
    have hfront : ∀ t, split sep (front.reverse ++ sep :: t) =
      split sep front.reverse ++ split sep t :=
      fun t => List.splitOnP_append_cons _ _ (by simp)
    have hend : split sep last.reverse = [last.reverse] :=
      List.splitOn_eq_singleton (by simpa using hlast)
    have hend' : split sep (last.reverse ++ t) = [last.reverse ++ t] :=
      List.splitOn_eq_singleton (by simp [hlast, ht])
    refine ⟨last.reverse, ?_⟩
    rw [hsplit, List.append_assoc, List.cons_append, hfront, hfront, hend, hend',
      List.dropLast_concat]
    exact ⟨rfl, rfl⟩
  · have hone : split sep s = [s] := List.splitOn_eq_singleton hs
    have hone' : split sep (s ++ t) = [s ++ t] :=
      List.splitOn_eq_singleton (by simp [hs, ht])
    refine ⟨s, ?_⟩
    rw [hone, hone']
    exact ⟨rfl, rfl⟩

end Go
