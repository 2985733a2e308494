/-!
# System errors

A system call that fails names its cause by a number. `Errno.text` is the wording that the shell
uses for it; numbers without a wording are unknown.
-/

namespace LineShell

/-- The number of a system error. -/
structure Errno where
  code : Int
  deriving Repr, DecidableEq

namespace Errno

def noEntry : Errno := ⟨2⟩
def interrupted : Errno := ⟨4⟩
def noExec : Errno := ⟨8⟩
def badDescriptor : Errno := ⟨9⟩
def noChild : Errno := ⟨10⟩
def denied : Errno := ⟨13⟩
def fileExists : Errno := ⟨17⟩
def notDirectory : Errno := ⟨20⟩
def isDirectory : Errno := ⟨21⟩
def invalid : Errno := ⟨22⟩
def nameTooLong : Errno := ⟨36⟩
def notEmpty : Errno := ⟨39⟩
def tooManyLinks : Errno := ⟨40⟩

/-- The wordings, by number. -/
def wordings : List (Int × String) :=
  [(1, "Operation not permitted"), (2, "No such file or directory"), (3, "No such process"),
   (4, "Interrupted system call"), (5, "I/O error"), (6, "No such device or address"),
   (7, "Argument list too long"), (8, "Exec format error"), (9, "Bad file number"),
   (10, "No child processes"), (11, "Try again"), (12, "Out of memory"),
   (13, "Permission denied"), (14, "Bad address"), (15, "Block device required"),
   (16, "Device or resource busy"), (17, "File exists"), (18, "Cross-device link"),
   (19, "No such device"), (20, "Not a directory"), (21, "Is a directory"),
   (22, "Invalid argument"), (23, "File table overflow"), (24, "Too many open files"),
   (25, "Not a typewriter"), (26, "Text file busy"), (27, "File too large"),
   (28, "No space left on device"), (29, "Illegal seek"), (30, "Read-only file system"),
   (31, "Too many links"), (32, "Broken pipe"), (33, "Math argument out of domain of func"),
   (34, "Math result not representable"), (35, "Resource deadlock would occur"),
   (36, "File name too long"), (37, "No record locks available"), (38, "Function not implemented"),
   (39, "Directory not empty"), (40, "Too many symbolic links encountered")]

/-- The wording of a system error. -/
def text (e : Errno) : String :=
  (wordings.lookup e.code).getD "Unknown errno"

end Errno

end LineShell
