import BootAssembly.Endian
import BootAssembly.Text

namespace BootAssembly.BootImage

def magic : Bytes := utf8 "ANDROID!"

def nameSize : Nat := 16

def argumentsSize : Nat := 512

def headerSize : Nat := 608

/-- The fields of a boot header. `name` and `arguments` are whole blocks, terminators and all. -/
structure Header where
  kernelSize : UInt32
  kernelAddr : UInt32
  ramdiskSize : UInt32
  ramdiskAddr : UInt32
  secondSize : UInt32
  secondAddr : UInt32
  tagsAddr : UInt32
  pageSize : UInt32
  deviceTreeSize : UInt32
  name : Bytes
  arguments : Bytes
deriving DecidableEq, Repr

namespace Header

def ofBytes (image : Bytes) : Header where
  kernelSize := le32At image 8
  kernelAddr := le32At image 12
  ramdiskSize := le32At image 16
  ramdiskAddr := le32At image 20
  secondSize := le32At image 24
  secondAddr := le32At image 28
  tagsAddr := le32At image 32
  pageSize := le32At image 36
  deviceTreeSize := le32At image 40
  name := (image.drop 48).take nameSize
  arguments := (image.drop 64).take argumentsSize

def commandLine (h : Header) : Bytes := untilNul (h.arguments.take (argumentsSize - 1))

def boardName (h : Header) : Bytes := untilNul h.name

end Header

end BootAssembly.BootImage
