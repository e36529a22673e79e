/-
GemCourier/Proofs/Commands/Adding.lean

Commands only add to the transcript.

What a command does and says depends on the disk, and a compiler is taken to be of
the same kind (`Compiler.Discreet`): what it does depends on the disk, and it sends
nothing.  The compilers of the program are.  Then a command that downloads sends what
the source of its repository sends, and one that syncs sends nothing.

Main results: `Compiler.discreet_external`, `Commands.adds_perform`.
-/
import GemCourier.Commands.Session
import GemCourier.Proofs.Commands.Printing
import GemCourier.Proofs.Remote.Requests

namespace GemCourier

variable {allowed : Request → Prop}

/-! ### Passes over the sources -/

namespace Sync

theorem adds_report (found : List Finding) : (Finding.report found).Adds allowed := by
  induction found with
  | nil => exact .pure _
  | cons finding rest ih =>
    cases finding with
    | leaf p => exact ih
    | unreadable folder fault => exact .bind (.note _ _) fun _ => ih

theorem adds_resolve (root : Path) : (SourceSets.resolve root).Adds allowed := by
  refine .bind .disk fun d => ?_
  dsimp only
  split
  · exact .bind (.note _ _) fun _ => .pure _
  · exact .pure _

theorem adds_sources (sets : SourceSets) : (sources sets).Adds allowed :=
  .bind .disk fun _ => .bind (adds_report _) fun _ => .pure _

theorem adds_reportLeftOut (d : Disk) (files : List Path) :
    (Snapshot.reportLeftOut d files).Adds allowed := by
  induction files with
  | nil => exact .pure _
  | cons p rest ih =>
    rw [Snapshot.reportLeftOut]
    cases d.modified p with
    | ok _ => exact ih
    | error fault => exact .bind (.note _ _) fun _ => ih

theorem adds_capture (sets : SourceSets) : (Snapshot.capture sets).Adds allowed :=
  .bind (adds_sources sets) fun _ => .bind .disk fun _ =>
    .bind (adds_reportLeftOut _ _) fun _ => .pure _

namespace Placement

theorem adds_startWatch (m : Placement) (interval : Interval) :
    (m.startWatch interval).Adds allowed :=
  .bind (adds_capture _) fun _ => .bind (.note _ _) fun _ => .pure _

theorem adds_store (source destination : Path) (bytes : ByteArray) :
    (store source destination bytes).Adds allowed := by
  refine .bind (Directory.adds_ensureParent _) fun answer => ?_
  cases answer with
  | error e => exact .pure _
  | ok _ =>
    refine .bind (.change _) fun answer => ?_
    cases answer with
    | error fault => exact .pure _
    | ok _ => exact .bind (.print _) fun _ => .pure _

theorem adds_copyFile (m : Placement) (source : Path) : (m.copyFile source).Adds allowed := by
  unfold copyFile
  split
  · exact .pure _
  · refine .bind .disk fun d => ?_
    split
    · exact .pure _
    · exact .bind (adds_store _ _ _) fun _ => .pure _

theorem adds_prepareBuckets (m : Placement) : m.prepareBuckets.Adds allowed := by
  refine .bind (Directory.adds_ensure _) fun answer => ?_
  cases answer with
  | error e => exact .pure _
  | ok _ =>
    refine .bind (Directory.adds_ensure _) fun answer => ?_
    cases answer <;> exact .pure _

theorem adds_copyFiles (m : Placement) (files : List Path) : (m.copyFiles files).Adds allowed := by
  induction files with
  | nil => exact .pure _
  | cons source rest ih =>
    refine .bind (adds_copyFile m source) fun answer => ?_
    match answer with
    | .ok (some _) => exact .bind ih fun _ => .pure _
    | .ok none => exact .bind (.note _ _) fun _ => ih
    | .error e =>
      exact .bind .disk fun _ => .bind (.note _ _) fun _ => .bind ih fun _ => .pure _

theorem adds_syncOnce (m : Placement) : m.syncOnce.Adds allowed := by
  refine .bind (adds_prepareBuckets m) fun answer => ?_
  cases answer with
  | error e => exact .pure _
  | ok _ =>
    exact .bind (adds_sources _) fun _ => .bind (adds_copyFiles m _) fun _ =>
      .bind (.note _ _) fun _ => .pure _

end Placement

end Sync

/-! ### Compiling -/

namespace Bytecode

/-- What the compiler does depends on the disk, and it sends nothing. -/
def Compiler.Discreet (compiler : Compiler) : Prop :=
  ∀ source target, (compiler.compile source target).Adds fun _ => False

theorem Compiler.discreet_external (searchPath : List Path) (program : Path) :
    (external searchPath program).Discreet := by
  intro source target
  refine .bind (.note _ _) fun _ => .bind (Program.adds_run _ _ _) fun answer => ?_
  cases answer with
  | error fault => exact .pure _
  | ok ending =>
    dsimp only
    split
    · exact .pure _
    · exact .pure _

theorem Compiler.discreet_trial (refusals : List (String × String)) :
    (trial refusals).Discreet := by
  intro source target
  dsimp only [trial]
  split
  · exact .pure _
  · refine .bind .disk fun d => ?_
    split
    · exact .pure _
    · refine .bind (.change _) fun answer => ?_
      cases answer <;> exact .pure _

variable {compiler : Compiler}

theorem adds_copyTo (source target : Path) : (copyTo source target).Adds allowed := by
  refine .bind .disk fun d => ?_
  split
  · exact .pure _
  · refine .bind (.change _) fun answer => ?_
    cases answer <;> exact .pure _

theorem adds_installAt (hcompiler : compiler.Discreet) (source target : Path) :
    (installAt compiler source target).Adds allowed := by
  refine .bind (Directory.adds_ensureParent _) fun answer => ?_
  cases answer with
  | error e => exact .pure _
  | ok _ =>
    dsimp only
    split
    · refine .bind ((hcompiler source target).mono fun _ h => h.elim) fun answer => ?_
      cases answer <;> exact .pure _
    · exact adds_copyTo source target

theorem adds_installAll (hcompiler : compiler.Discreet) (workspace destination : Path)
    (files : List Path) : (installAll compiler workspace destination files).Adds allowed := by
  induction files with
  | nil => exact .pure _
  | cons source rest ih =>
    rw [installAll]
    split
    · exact ih
    · refine .bind (adds_installAt hcompiler _ _) fun answer => ?_
      cases answer with
      | error e => exact .bind .disk fun _ => .bind (.note _ _) fun _ => .bind ih fun _ => .pure _
      | ok _ =>
        refine .bind ih fun report => ?_
        split <;> exact .pure _

theorem adds_install (hcompiler : compiler.Discreet) (workspace destination : Path) :
    (install compiler workspace destination).Adds allowed :=
  .bind .disk fun _ => .bind (Sync.adds_report _) fun _ => adds_installAll hcompiler _ _ _

end Bytecode

/-! ### The commands -/

namespace Commands

open Remote CommandLine

section Adding

variable {tree : RemoteTree}

theorem adds_installGem (hsends : tree.toSource.Sends allowed) (source : String)
    (destination : Path) : (installGem tree source destination).Adds allowed := by
  refine .bind (Source.adds_download hsends _ _ _) fun answer => ?_
  cases answer with
  | error cause => exact .pure _
  | ok report => exact .bind .disk fun _ => .bind (.printAll _) fun _ => .pure _

theorem adds_compileGem {compiler : Bytecode.Compiler} (hcompiler : compiler.Discreet)
    (workspace destination : Path) :
    (compileGem compiler workspace destination).Adds allowed :=
  .bind (.print _) fun _ => .bind (.print _) fun _ =>
    .bind (Bytecode.adds_install hcompiler _ _) fun _ => .bind .disk fun _ => .printAll _

theorem adds_installInto {s : Surroundings} (hcompiler : s.compiler.Discreet)
    (hsends : tree.toSource.Sends allowed) (source : String) (outputDir : Path)
    (package : String) (compile : Bool) :
    (installInto s tree source outputDir package compile).Adds allowed := by
  unfold installInto
  split
  · refine .bind (adds_installGem hsends _ _) fun outcome => ?_
    dsimp only
    split
    · exact .bind (adds_compileGem hcompiler _ _) fun _ =>
        .bind (Directory.adds_clearAway _) fun _ => .pure _
    · exact .bind (Directory.adds_clearAway _) fun _ => .pure _
  · exact .bind (adds_installGem hsends _ _) fun _ => .pure _

end Adding

variable {s : Surroundings} {p : Project}

theorem adds_add (hcompiler : s.compiler.Discreet) (flags : RemoteFlags)
    (hsends : (remoteTree s p flags).toSource.Sends allowed) (package : String)
    (output : Option Path) (compile : Bool) :
    (add s p package flags output compile).Adds allowed := by
  refine .bind (.print _) fun _ => .bind (.print _) fun _ => .bind (.print _) fun _ =>
    .bind (.print _) fun _ => .bind (.print _) fun _ => .bind (.print _) fun _ =>
      .bind (.print _) fun _ => .bind (adds_installInto hcompiler hsends _ _ _ _) fun answer => ?_
  cases answer with
  | ok _ => exact .pure _
  | error e =>
    dsimp only
    split
    · exact .bind (.print _) fun _ => .pure _
    · exact .pure _

theorem adds_list (flags : RemoteFlags) (hsends : (remoteTree s p flags).toSource.Sends allowed) :
    (list s p flags).Adds allowed := by
  have hnames : ∀ gemsDir, (gemNames (remoteTree s p flags) gemsDir).Adds allowed := by
    intro gemsDir
    refine .bind (adds_ask _ (hsends.list gemsDir)) fun answer => ?_
    cases answer with
    | error cause => exact .pure _
    | ok entries => exact .bind (.note _ _) fun _ => .pure _
  refine .bind (.print _) fun _ => .bind (.print _) fun _ => .bind (.print _) fun _ =>
    .bind (.print _) fun _ => .bind (.print _) fun _ => .bind (hnames _) fun answer => ?_
  cases answer with
  | error e => exact .pure _
  | ok gems => exact .bind (.printAll _) fun _ => .pure _

theorem adds_sync (p : Project) (storage : Option Path) (watch : Bool)
    (interval : Option Interval) : (sync p storage watch interval).Adds allowed := by
  unfold sync
  split
  · exact .pure _
  · refine .bind (Sync.adds_resolve _) fun sets => .bind .disk fun d => .bind (.print _) fun _ =>
      .bind (.print _) fun _ => .bind (.print _) fun _ => .bind (.print _) fun _ =>
        .bind (.print _) fun _ => .bind (Sync.Placement.adds_syncOnce _) fun answer => ?_
    cases answer with
    | error cause => exact .pure _
    | ok report =>
      refine .bind .disk fun d => .bind (.printAll _) fun _ => ?_
      split
      · exact .bind (.bind (.print _) fun _ => .bind (.print _) fun _ =>
          .bind (Sync.Placement.adds_startWatch _ _) fun _ => .pure _) fun _ => .pure _
      · exact .pure _

/-- A command other than the update only adds to the transcript, and sends what the sources of
its repositories send. -/
theorem adds_perform (hcompiler : s.compiler.Discreet)
    (hsends : ∀ flags, (remoteTree s p flags).toSource.Sends allowed) {command : Command}
    (hcommand : command.isUpdate = false) : (perform s p command).Adds allowed := by
  cases command with
  | add package flags output compile =>
    exact .bind (adds_add hcompiler flags (hsends flags) _ _ _) fun _ => .pure _
  | list flags => exact .bind (adds_list flags (hsends flags)) fun _ => .pure _
  | sync storage watch interval =>
    refine .bind (adds_sync p _ _ _) fun answer => ?_
    cases answer <;> exact .pure _
  | update check => cases hcommand

end Commands

end GemCourier
