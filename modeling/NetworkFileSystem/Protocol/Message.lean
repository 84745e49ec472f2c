import NetworkFileSystem.Base.Text

/-!
# Messages between clients, naming server and storage servers

`helper.h:7–17` and the literals of `naming_server.c` and `storage_server.c`. A
command is one line of words separated by blanks; every program reads it into a
buffer of `BUFFER_SIZE` bytes.
-/

namespace NetworkFileSystem.Protocol

open Base

/-- `helper.h:7`. -/
def bufferSize : Nat := 1024

/-- `helper.h:15`. -/
def maxPathSize : Nat := 2048

/-- The byte `'|'` between the fields of a write. -/
def bar : UInt8 := 124

/-- The words of a command line, as `strtok` over blanks returns them. -/
def words (line : Text) : List Text := tokens blank line

/-- The answer to a path that no server has. -/
def notFound : Text := lit "Storage server not found"

/-- The answer if a storage server took a command and stays silent. -/
def notResponding : Text := lit "Storage server not responding"

/-- The answer to a path that names no entry of a server. -/
def invalidPath : Text := lit "Invalid Path"

/-- The end of the listing of all servers. -/
def listingOver : Text := lit "@#!@#over@$"

/-- The end of an index, `helper.c:482`. -/
def finishedIndexing : Text := lit "@!-Finished Indexing-!@"

/-- The line of an index for a path, `helper.c:441–442`, again at `457`. -/
def indexLine (path : Text) : Text := clip maxPathSize (path ++ lit "\n")

/-- The folder in which a server keeps what it holds for others. -/
def backupFolder : Text := lit "./backupfolderforss"

/-- `strncmp(response, "Could not", 9) == 0`: a storage server reports a failure. -/
def couldNot (response : Text) : Bool := startsWith (lit "Could not") response

end NetworkFileSystem.Protocol
