/-
Loading the native library: `JvmBlake3.kt`, `AndroidBlake3.kt`, `FfmLoader.kt`,
and the `lookup` of `FfmBlake3.kt`.

* `LoaderCmd` — the steps that touch anything shared or may fail: the
  `getAndSet` on `loaded`, system properties, resources, the temp file, the load
  itself, and the steps of a Kotlin `lazy` property;
* `Jvm.loadNativeLibrary`, `Android.loadNativeLibrary`, `Ffm.loadNativeLibrary`
  — the three loaders, which differ in where they look first;
* `Ffm.lookup` — `FfmBlake3.lookup`, which loads at its first use.
-/
import Blake3Kmp.Kotlin
import Blake3Kmp.Programs
import Mathlib.Data.List.Infix

open Programs Prog

namespace Blake3Kmp

inductive LoaderCmd
  /-- `loaded.getAndSet(true)`. -/
  | getAndSet
  | getProperty (name : String)
  /-- `getResourceAsStream(path)`; whether there is a stream. -/
  | getResource (path : String)
  | createTempFile (start : String)
  | deleteOnExit (path : String)
  /-- `Files.copy(stream, tempFile, REPLACE_EXISTING)`. -/
  | copy (path : String)
  | closeStream
  /-- `System.load`. -/
  | load (path : String)
  /-- `System.loadLibrary`. -/
  | loadLibrary (name : String)
  /-- Whether the `lazy` value of `lookup` is there. -/
  | readLookup
  | lockLookup
  | unlockLookup
  /-- `SymbolLookup.loaderLookup()`. -/
  | loaderLookup
  /-- The `lazy` value of `lookup` is stored. -/
  | writeLookup

def LoaderCmd.Answer : LoaderCmd → Type
  | getAndSet => Bool
  | getProperty _ => Option String
  | getResource _ => Bool
  | createTempFile _ => String
  | readLookup => Bool
  | _ => Unit

abbrev LoaderProg (α : Type) := Prog LoaderCmd LoaderCmd.Answer Throwable α

/-! ### The steps -/

namespace Loader

def getAndSet : LoaderProg Bool := request LoaderCmd.getAndSet

def getProperty (name : String) : LoaderProg (Option String) := request (LoaderCmd.getProperty name)

def getResource (path : String) : LoaderProg Bool := request (LoaderCmd.getResource path)

def createTempFile (start : String) : LoaderProg String := request (LoaderCmd.createTempFile start)

def deleteOnExit (path : String) : LoaderProg Unit := request (LoaderCmd.deleteOnExit path)

def copy (path : String) : LoaderProg Unit := request (LoaderCmd.copy path)

def closeStream : LoaderProg Unit := request LoaderCmd.closeStream

def load (path : String) : LoaderProg Unit := request (LoaderCmd.load path)

def loadLibrary (name : String) : LoaderProg Unit := request (LoaderCmd.loadLibrary name)

def readLookup : LoaderProg Bool := request LoaderCmd.readLookup

def lockLookup : LoaderProg Unit := request LoaderCmd.lockLookup

def unlockLookup : LoaderProg Unit := request LoaderCmd.unlockLookup

def loaderLookup : LoaderProg Unit := request LoaderCmd.loaderLookup

def writeLookup : LoaderProg Unit := request LoaderCmd.writeLookup

end Loader

open Loader

/-! ### The loaders -/

/-- `text.contains(part)`. -/
def contains (text part : String) : Bool := decide (part.toList <:+: text.toList)

/-- The file name of the library, by operating system. -/
def libName (osName osArch : String) : Except Throwable String :=
  if contains osName "windows" then .ok "blake3-kmp.dll"
  else if contains osName "linux" then .ok "libblake3-kmp.so"
  else if contains osName "mac" then .ok "libblake3-kmp.dylib"
  else .error (illegalState ("Unsupported OS: " ++ osName ++ " (arch=" ++ osArch ++ ")"))

/-- The resources that hold the library. -/
def candidates (osArch libName : String) : List String :=
  ["/jni/" ++ osArch ++ "/" ++ libName,
    if osArch = "amd64" then "/jni/x86_64/" ++ libName else "/jni/amd64/" ++ libName]

/-- Android also looks under `/native-host/`. -/
def hostCandidates (osArch libName : String) : List String :=
  candidates osArch libName ++
    ["/native-host/" ++ osArch ++ "/" ++ libName,
      "/native-host/" ++ osArch ++ "/" ++ libName ++ ".bin",
      if osArch = "amd64" then "/native-host/x86_64/" ++ libName
        else "/native-host/amd64/" ++ libName,
      if osArch = "amd64" then "/native-host/x86_64/" ++ libName ++ ".bin"
        else "/native-host/amd64/" ++ libName ++ ".bin"]

def couldNotLoad (libName osName osArch : String) (candidates : List String) : Throwable :=
  illegalState ("Could not load native library " ++ libName ++ " for os=" ++ osName ++ " arch=" ++
    osArch ++ ". Tried resources [" ++ ", ".intercalate candidates ++ "]")

/-- `candidates.firstNotNullOfOrNull { getResourceAsStream(it) }`. -/
def firstResource : List String → LoaderProg Bool
  | [] => .pure false
  | path :: paths => do
    if ← getResource path then .pure true else firstResource paths

/-- The resource found is copied to a temp file, which is loaded. -/
def copyAndLoad (start : String) : LoaderProg Unit := do
  let tempFile ← createTempFile start
  deleteOnExit tempFile
  closing closeStream (copy tempFile)
  load tempFile

section

variable (lowercase : String → String)

/-- `(System.getProperty(name) ?: "").lowercase(US)`. -/
def property (name : String) : LoaderProg String := do
  .pure (lowercase ((← getProperty name).getD ""))

/-- `System.getProperty(name).lowercase(US)`, which fails for a property that is not set. -/
def propertyOf (name : String) : LoaderProg String := do
  match ← getProperty name with
  | none => .raise ⟨.nullPointerException, "java.lang.System.getProperty(...) must not be null"⟩
  | some value => .pure (lowercase value)

/-- The last steps of the JVM and the FFM loader: the first resource there is, or else
`java.library.path`. -/
def loadDesktop (start osName osArch : String) : LoaderProg Unit := do
  match libName osName osArch with
  | .error e => .raise e
  | .ok lib =>
    if ← firstResource (candidates osArch lib) then copyAndLoad start
    else (loadLibrary "blake3-kmp").tryCatch fun _ =>
      .raise (couldNotLoad lib osName osArch (candidates osArch lib))

def Jvm.loadNativeLibrary : LoaderProg Unit := do
  if ← getAndSet then .pure ()
  else
    let osName ← property lowercase "os.name"
    let osArch ← property lowercase "os.arch"
    loadDesktop "blake3-kmp" osName osArch

def Ffm.loadNativeLibrary : LoaderProg Unit := do
  if ← getAndSet then .pure ()
  else
    let osName ← propertyOf lowercase "os.name"
    let osArch ← propertyOf lowercase "os.arch"
    loadDesktop "blake3-ffm" osName osArch

/-- Android loads the packaged library first; only an `UnsatisfiedLinkError` falls through to
the resources. -/
def Android.loadNativeLibrary : LoaderProg Unit := do
  if ← getAndSet then .pure ()
  else
    let done ← ((loadLibrary "blake3-kmp").bind fun _ => .pure true).tryCatch fun e =>
      if e.cls = .unsatisfiedLinkError then .pure false else .raise e
    if done then .pure ()
    else
      let osName ← property lowercase "os.name"
      let osArch ← property lowercase "os.arch"
      match libName osName osArch with
      | .error e => .raise e
      | .ok lib =>
        if ← firstResource (hostCandidates osArch lib) then copyAndLoad "blake3-kmp"
        else .raise (couldNotLoad lib osName osArch (hostCandidates osArch lib))

/-- `FfmBlake3.lookup`: a synchronized `lazy` value, which stays unset when loading fails. -/
def Ffm.lookup : LoaderProg Unit := do
  if ← readLookup then .pure ()
  else
    lockLookup
    closing unlockLookup do
      if ← readLookup then .pure ()
      else
        Ffm.loadNativeLibrary lowercase
        loaderLookup
        writeLookup

end

end Blake3Kmp
