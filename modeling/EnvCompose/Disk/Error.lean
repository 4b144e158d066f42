/-!
# Failures of disk operations
-/
namespace EnvCompose

inductive DiskError where
  | notFound
  | alreadyExists
  | notDirectory
  | isDirectory
  | nameTooLong
  | busy
  | invalidName
  /-- A path no file can be moved to. -/
  | invalidArgument
  /-- A directory no program can be run in. -/
  | invalidDirectory
  /-- A file read as text does not hold UTF-8. -/
  | notText
  /-- A file to be copied is no file. -/
  | notFile
  /-- A failure the machine reports in words of its own. -/
  | other (text : String)
  deriving DecidableEq, Repr, Inhabited

def DiskError.message : DiskError → String
  | .notFound => "No such file or directory (os error 2)"
  | .alreadyExists => "File exists (os error 17)"
  | .notDirectory => "Not a directory (os error 20)"
  | .isDirectory => "Is a directory (os error 21)"
  | .nameTooLong => "File name too long (os error 36)"
  | .busy => "Device or resource busy (os error 16)"
  | .invalidName => "file name contained an unexpected NUL byte"
  | .invalidArgument => "Invalid argument (os error 22)"
  | .invalidDirectory => "nul byte found in provided data"
  | .notText => "stream did not contain valid UTF-8"
  | .notFile => "the source path is neither a regular file nor a symlink to a regular file"
  | .other text => text

end EnvCompose
