import Paging.CommandLine.FileTree

/-!
# Scratch trees

A file tree such as a process finds that is started in a directory of its own, with nothing to read
and no terminal.
-/

namespace Paging.CommandLine.FileTree

/-- The place that names lead to from the root. -/
def place (names : String) : Place :=
  ((names.toList.splitOn '/').map String.ofList).reverse

def directories : List String :=
  ["bin", "boot", "dev", "dev/pts", "dev/shm", "etc", "home", "lib", "lib64", "media", "mnt", "opt",
    "root", "run", "sbin", "srv", "sys", "tmp", "usr", "usr/bin", "usr/lib", "usr/local",
    "usr/share", "var", "var/log", "var/tmp"]

/-- Directories that describe processes. -/
def sealedDirectories : List String := ["proc", "proc/self", "proc/self/fd"]

/-- Devices by place. Zeros stand for the bytes that nobody can foretell. -/
def devices : List (String × Device) :=
  [("dev/null", .null), ("dev/zero", .zero), ("dev/full", .full), ("dev/tty", .terminal),
    ("dev/random", .zero), ("dev/urandom", .zero)]

/-- Files that every system has. They are short, and what they hold is not known. -/
def shortFiles : List String := ["etc/group", "etc/hostname", "etc/hosts", "etc/passwd"]

/-- The working directory. It has no name that a path could spell, so that only relative paths and
the links to it lead there. -/
def scratchPlace : Place := ["", "tmp"]

/-- What the process reads, writes and complains to. -/
def standardFiles : List (String × Device) :=
  [("stdin", .null), ("stdout", .stream .output), ("stderr", .stream .errors)]

/-- A tree whose working directory holds some files. -/
def scratch (files : List (String × Array UInt8)) : FileTree :=
  let standard := standardFiles.zipIdx
  { nodes :=
      files.map (fun (name, bytes) => (name :: scratchPlace, Node.file bytes)) ++
      (scratchPlace, .directory false) :: directories.map (fun d => (place d, .directory false)) ++
      sealedDirectories.map (fun d => (place d, .directory true)) ++
      devices.map (fun (names, d) => (place names, .device d)) ++
      shortFiles.map (fun f => (place f, .file #[])) ++
      standard.map (fun ((_, d), i) => (descriptor i, .device d))
    links :=
      [(place "dev/fd", place "proc/self/fd"), (place "proc/self/cwd", scratchPlace),
        (place "proc/self/root", [])] ++
      standard.map (fun ((name, _), i) => ([name, "dev"], descriptor i))
    working := scratchPlace
    output := #[]
    errors := #[] }

end Paging.CommandLine.FileTree
