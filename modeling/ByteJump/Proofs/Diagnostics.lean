import ByteJump.Compile
import ByteJump.Proofs.Digits
import ByteJump.Proofs.LineOrigins
import ByteJump.Proofs.Resolve.NamedFiles
import ByteJump.Proofs.Sessions
import ByteJump.Proofs.Sited.Emission
import ByteJump.Proofs.Sited.Resolve

set_option autoImplicit false

/-!
# Where diagnostics point

A fault of a compilation that has a place is placed at a part of a file that was read: the main
file or one that is imported, perhaps through others.  The message names that file.  The pointer
under the message need not: with a line map it takes the line for one of the main file, whichever
file the fault is in, so it shows the place of the fault only if the line came from there.
-/

namespace ByteJump

namespace Compiler

/-! ## Files that are read -/

/-- A file of the given tree is read when the main file is compiled: it is the main file, or it is
imported by such a file. -/
inductive Reads (c : Compiler) (tree : Syntax.Program) (main : Path) : Path → Syntax.Program → Prop
  | main : Reads c tree main main tree
  | imported {file path : Path} {t t' : Syntax.Program} {name : String}
      (h : Reads c tree main file t)
      (hname : name ∈ Syntax.Stmt.listImports t)
      (htarget : c.source.target c.searchPaths name = some path)
      (hload : c.source.load (c.source.identity path) = .ok t') :
      Reads c tree main (c.source.identity path) t'

/-- The place of a part of a file that is read. -/
def HasPart (c : Compiler) (tree : Syntax.Program) (main : Path) (site : Location) : Prop :=
  ∃ t, c.Reads tree main site.file t ∧ site.span ∈ Syntax.Stmt.listSpans t

/-- The place that the source of files itself gives to the fault of a file. -/
def Blames (c : Compiler) (site : Location) : Prop :=
  ∃ path e, c.source.load path = .error e ∧ e.site? = some site

/-- The places of faults. -/
def Places (c : Compiler) (tree : Syntax.Program) (main : Path) (site : Location) : Prop :=
  c.HasPart tree main site ∨ c.Blames site

variable {c : Compiler} {tree : Syntax.Program} {main : Path}

theorem resolveFile_sited : ∀ (levels : Nat) (active : List Path) (unit : FileUnit) {file : Path}
    {t : Syntax.Program}, c.Reads tree main file t →
      Resolve.LoadsIn (c.Places tree main)
        (Session.resolveFile c.source c.searchPaths levels active unit file t)
  | levels, active, unit, file, t, h => by
      rw [Session.resolveFile_eq]
      refine Resolve.file_sited (fun span hspan => .inl ⟨t, h, hspan⟩) ?_
      intro name hname path htarget I hI
      show Resolve.LoadedIn _ (Session.importKept c.source c.searchPaths levels (active ++ [file])
        (c.source.identity path) I)
      cases levels with
      | zero => exact ⟨Fault.siteIn_of_none rfl, hI⟩
      | succ levels =>
          rw [Session.importKept_run]
          cases hload : c.source.load (c.source.identity path) with
          | error e => exact ⟨fun site hsite => .inr ⟨_, e, hload, hsite⟩, hI⟩
          | ok t' =>
              have hrest := resolveFile_sited levels (active ++ [file])
                (.library (c.source.identity path).key) (h.imported hname htarget hload) I hI
              dsimp only
              cases hrun : Session.resolveFile c.source c.searchPaths levels (active ++ [file])
                  (.library (c.source.identity path).key) (c.source.identity path) t' I with
              | error e J =>
                  rw [hrun] at hrest
                  exact hrest
              | ok p J =>
                  rw [hrun] at hrest
                  exact ⟨hrest.1, List.forall_mem_cons.mpr ⟨hrest.1, hrest.2⟩⟩

theorem resolve_sited :
    FaultsIn (c.Places tree main) (c.resolve tree main) (Program.SitesIn (c.Places tree main)) := by
  have hfile := resolveFile_sited (c.source.count + 1) [] (.main 0) (@Reads.main c tree main) []
    fun _ h => by cases h
  unfold resolve
  rw [Session.resolve_fst]
  show FaultsIn _ (Resolve.value (Session.resolveFile c.source c.searchPaths (c.source.count + 1) []
    (.main 0) main tree [])) _
  cases hrun : Session.resolveFile c.source c.searchPaths (c.source.count + 1) [] (.main 0) main
      tree [] with
  | error e J =>
      rw [hrun] at hfile
      exact hfile.1
  | ok p J =>
      rw [hrun] at hfile
      exact hfile.1

/-- A fault of a compilation is placed at a part of a file that is read, or where the source of
files says. -/
theorem compileTree_sited : FaultsIn (c.Places tree main) (c.compileTree tree main) fun _ => True :=
  resolve_sited.bind fun _ hp => Emit.generate_sited hp .none

end Compiler

/-! ## Places as they are shown -/

namespace Fault

/-- A line of a file and a column as a diagnostic shows them. -/
def place (file : String) (line column : Nat) : String :=
  file ++ ":" ++ toString line ++ ":" ++ toString column

theorem place_inj {file file' : String} {line line' column column' : Nat}
    (h : place file line column = place file' line' column') :
    file = file' ∧ line = line' ∧ column = column' := by
  have hcolon (n : Nat) : ':' ∉ (Nat.toDigits 10 n).reverse := by
    rw [List.mem_reverse]
    exact Text.notMem_decimal (by decide) n
  have hshape (file : String) (line column : Nat) :
      (place file line column).toList.reverse = (Nat.toDigits 10 column).reverse ++
        ':' :: ((Nat.toDigits 10 line).reverse ++ ':' :: file.toList.reverse) := by
    simp [place]
  have hreverse := congrArg (fun text : String => text.toList.reverse) h
  simp only [hshape] at hreverse
  have hdigits := congrArg (Text.before ':') hreverse
  have hrest := congrArg (Text.behind ':') hreverse
  rw [Text.before_append (hcolon _), Text.before_append (hcolon _)] at hdigits
  rw [Text.behind_append (hcolon _), Text.behind_append (hcolon _)] at hrest
  have hdigits' := congrArg (Text.before ':') hrest
  have hfile := congrArg (Text.behind ':') hrest
  rw [Text.before_append (hcolon _), Text.before_append (hcolon _)] at hdigits'
  rw [Text.behind_append (hcolon _), Text.behind_append (hcolon _)] at hfile
  have hvalue (m n : Nat) (h : (Nat.toDigits 10 m).reverse = (Nat.toDigits 10 n).reverse) :
      m = n := by
    rw [← Text.valueOf_ten m, List.reverse_inj.mp h, Text.valueOf_ten]
  exact ⟨String.toList_inj.mp (List.reverse_inj.mp hfile), hvalue _ _ hdigits', hvalue _ _ hdigits⟩

/-- Where a fault is itself. -/
def ownPlace (site : Location) : String :=
  place site.file.text site.span.start.line.toNat site.span.start.column.toNat

theorem pointer_none (site : Location) : pointer none site = ownPlace site := by
  simp [pointer, ownPlace, place, Position.text, String.append_assoc]

/-- Where the line of a place came from, taken for a line of the source. -/
def originIn (source file : String) (site : Location) : LineMap.Origin :=
  ((LineMap.Pass.ofSource source file).origin (site.span.start.line.toNat - 1)).wrap

/-- The pointer with the line map of a source: the line is taken for a line of that source. -/
theorem pointer_preprocess (source file : String) (site : Location) :
    pointer (some (LineMap.preprocess source file).map) site =
      if site.span.start.line.toNat = 0 then ownPlace site
      else place (originIn source file site).file (originIn source file site).line
        site.span.start.column.toNat := by
  have hagrees := LineMap.agrees_preprocess source file
  rw [← pointer_none]
  cases hline : site.span.start.line.toNat with
  | zero => simp [pointer, hline, hagrees.zero]
  | succ line => simp [pointer, hline, hagrees.origin, place, originIn]

/-- The pointer shows the place of the fault only if the line came from there. -/
theorem pointer_preprocess_iff (source file : String) (site : Location) :
    pointer (some (LineMap.preprocess source file).map) site = ownPlace site ↔
      site.span.start.line.toNat = 0 ∨ (originIn source file site).file = site.file.text ∧
        (originIn source file site).line = site.span.start.line.toNat := by
  rw [pointer_preprocess]
  by_cases hline : site.span.start.line.toNat = 0
  · rw [if_pos hline]
    exact ⟨fun _ => .inl hline, fun _ => rfl⟩
  · rw [if_neg hline]
    constructor
    · intro h
      obtain ⟨hfile, horigin, -⟩ := place_inj h
      exact .inr ⟨hfile, horigin⟩
    · rintro (h | ⟨hfile, horigin⟩)
      · exact absurd h hline
      · rw [ownPlace, hfile, horigin]

/-- The text shows the place. -/
def Names (text : String) (site : Location) : Prop :=
  ∃ front behind, text = front ++ site.text ++ behind

theorem names_behind (front : String) (site : Location) : Names (front ++ behind site) site :=
  ⟨front ++ " at ", "", by simp [behind, String.append_assoc]⟩

/-- The message of a fault shows where the fault is. -/
theorem message_names {e : Fault} {site : Location} (h : e.site? = some site) :
    Names e.message site := by
  cases e with
  | undefined | typeMismatch | invalidAccess | notConstant | invalidPragma | unknownPragma
  | importNotFound | importCycle | unresolvedLabel | duplicateField | unsupportedTarget
  | divisionByZero =>
      cases h
      exact names_behind _ _
  | unimplemented construct site =>
      cases h
      exact names_behind _ _
  | outOfRegisters limit site =>
      cases h
      exact names_behind _ _
  | misplacedPragma pragma site =>
      cases h
      exact ⟨"pragma @" ++ pragma ++ " is only allowed at file top level (", ")", rfl⟩
  | load | internal | outOfBounds | stepLimit => cases h

/-- A fault with a place as it is shown. -/
def shown (e : Fault) (pointed : String) : String :=
  "error[" ++ e.kind ++ "]: " ++ e.message ++ "\n --> " ++ pointed

theorem diagnostic_eq {e : Fault} {site : Location} (h : e.site? = some site)
    (map : Option LineMap) : e.diagnostic map = e.shown (pointer map site) := by
  rw [diagnostic, h]
  simp [shown, String.append_assoc]

theorem shown_inj {e : Fault} {pointed pointed' : String} :
    e.shown pointed = e.shown pointed' ↔ pointed = pointed' := by
  refine ⟨fun h => ?_, fun h => by rw [h]⟩
  have htext := congrArg String.toList h
  simp only [shown, String.toList_append] at htext
  exact String.toList_inj.mp (List.append_cancel_left htext)

end Fault

/-! ## Diagnostics -/

open Fault

/-- A fault of a compilation that has a place is placed at a part of the main file or of a file that
is imported, if not where the source of files says, and the message shows that place.  Without a
line map the pointer shows it too.  With the line map of the source of the main file the pointer
shows where the line of the fault came from if it is one of that source, which is another place
unless it came from the line of the fault in the file of the fault. -/
theorem Compiler.diagnostic_points (c : Compiler) (tree : Syntax.Program) (main : Path) {e : Fault}
    {site : Location} (hfault : c.compileTree tree main = .error e) (hsite : e.site? = some site) :
    (c.HasPart tree main site ∨ c.Blames site) ∧ Names e.message site ∧
      e.diagnostic none = e.shown (ownPlace site) ∧
      ∀ source : String,
        let map := (LineMap.preprocess source main.text).map
        let line := site.span.start.line.toNat
        let origin := originIn source main.text site
        e.diagnostic (some map) =
            e.shown (if line = 0 then ownPlace site
              else place origin.file origin.line site.span.start.column.toNat) ∧
          (e.diagnostic (some map) = e.diagnostic none ↔
            line = 0 ∨ origin.file = site.file.text ∧ origin.line = line) := by
  refine ⟨compileTree_sited.fault hfault site hsite, message_names hsite, ?_,
    fun source => ⟨?_, ?_⟩⟩
  · rw [diagnostic_eq hsite, pointer_none]
  · rw [diagnostic_eq hsite, pointer_preprocess]
  · rw [diagnostic_eq hsite, diagnostic_eq hsite, pointer_none, shown_inj]
    exact pointer_preprocess_iff source main.text site

/-- The kind, the file and the span of a fault. -/
def Compiler.failure? (result : Except Fault Artifact) : Option (String × String × Span) :=
  match result with
  | .ok _ => none
  | .error e => e.site?.map fun site => (e.kind, site.file.text, site.span)

theorem Compiler.exists_of_failure {result : Except Fault Artifact} {kind file : String}
    {span : Span} (h : failure? result = some (kind, file, span)) :
    ∃ e, result = .error e ∧ e.kind = kind ∧ e.site? = some ⟨⟨file⟩, span⟩ := by
  cases result with
  | ok artifact => cases h
  | error e =>
      obtain ⟨⟨⟨file'⟩, span'⟩, hsite, heq⟩ := Option.map_eq_some_iff.mp h
      cases heq
      exact ⟨e, rfl, rfl, hsite⟩

/-- A variable without a meaning in line 3 of an imported file: the pointer shows line 3 of the main
file, although the main file has one line only. -/
theorem Compiler.diagnostic_points_import :
    let lib : Syntax.Program := [.mk [] (.evaluate (.variable "x" ⟨⟨3, 5⟩, ⟨3, 6⟩⟩)) .zero]
    let tree : Syntax.Program := [.mk [] (.importFile ⟨"lib", .zero⟩) .zero]
    let c : Compiler := ⟨MemoryFiles.source [(⟨"src/lib"⟩, lib)], [⟨"src"⟩]⟩
    let map := (LineMap.preprocess "import lib;\n" "main.bbj").map
    ∃ e, c.compileTree tree ⟨"main.bbj"⟩ = .error e ∧ e.kind = "UndefinedSymbol" ∧
      e.site? = some ⟨⟨"src/lib"⟩, ⟨⟨3, 5⟩, ⟨3, 6⟩⟩⟩ ∧
      e.diagnostic none = e.shown "src/lib:3:5" ∧
      e.diagnostic (some map) = e.shown "main.bbj:3:5" := by
  intro lib tree c map
  have hfailure : failure? (c.compileTree tree ⟨"main.bbj"⟩) =
      some ("UndefinedSymbol", "src/lib", ⟨⟨3, 5⟩, ⟨3, 6⟩⟩) := by decide +kernel
  obtain ⟨e, hfault, hkind, hsite⟩ := exists_of_failure hfailure
  obtain ⟨-, -, hnone, hmap⟩ := c.diagnostic_points tree ⟨"main.bbj"⟩ hfault hsite
  obtain ⟨hpointed, -⟩ := hmap "import lib;\n"
  have hown : ownPlace ⟨⟨"src/lib"⟩, ⟨⟨3, 5⟩, ⟨3, 6⟩⟩⟩ = "src/lib:3:5" := by decide +kernel
  have horigin : originIn "import lib;\n" "main.bbj" ⟨⟨"src/lib"⟩, ⟨⟨3, 5⟩, ⟨3, 6⟩⟩⟩ =
      ⟨"main.bbj", 3, []⟩ := by decide +kernel
  have hplace : place "main.bbj" 3 5 = "main.bbj:3:5" := by decide +kernel
  refine ⟨e, hfault, hkind, hsite, by rw [hnone, hown], ?_⟩
  rw [← hplace]
  simpa [horigin] using hpointed

end ByteJump
